import ContextFree.Derivation
import ContextFree.Language
import ContextFree.Main
import ContextFree.Notation.RuleList
import ContextFree.Proofs.Backtracking
import ContextFree.Proofs.BinarySize
import ContextFree.Proofs.Description
import ContextFree.Proofs.Layout
import ContextFree.Proofs.Discovery
import ContextFree.Proofs.Emptiness
import ContextFree.Proofs.Findings
import ContextFree.Proofs.InsertionOrder
import ContextFree.Proofs.NameRequests
import ContextFree.Proofs.NewNames
import ContextFree.Proofs.PrintedNormalForm
import ContextFree.Proofs.Reduced
import ContextFree.Proofs.Repetition
import ContextFree.Proofs.RuleSection
import ContextFree.Proofs.SecondCleaning
import ContextFree.Proofs.ShortWords
import ContextFree.Proofs.Transformation
import ContextFree.Proofs.TypedForm
import ContextFree.Proofs.UnitClosures
import ContextFree.Proofs.UsefulPart
import ContextFree.Proofs.ViablePrefix
import ContextFree.Proofs.Warnings
import ContextFree.Proofs.Worklist
