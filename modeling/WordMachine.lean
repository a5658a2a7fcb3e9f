import WordMachine.Main
import WordMachine.Proofs.InstructionStream
import WordMachine.Proofs.BackPatching
import WordMachine.Proofs.ListingLines
import WordMachine.Proofs.Reassembly
import WordMachine.Proofs.CanonicalForm
import WordMachine.Proofs.Scheduling
import WordMachine.Proofs.QuantaConservation
import WordMachine.Proofs.Sessions
import WordMachine.Proofs.ForwardReferences
import WordMachine.Proofs.FlatMemory
import WordMachine.Proofs.OperandAgreement
import WordMachine.Proofs.RegisterViews
import WordMachine.Proofs.Transfers
import WordMachine.Proofs.CallNesting
import WordMachine.Proofs.JumpTargets
import WordMachine.Proofs.FaultStates
import WordMachine.Proofs.WiderMemory
import WordMachine.Proofs.Flattening
import WordMachine.Proofs.ImportCycles
import WordMachine.Proofs.FailedLines
import WordMachine.Proofs.LabelAddresses
import WordMachine.Proofs.AnnotatedListings
import WordMachine.Proofs.OperandOrder
import WordMachine.Proofs.PrefixGrammar
import WordMachine.Proofs.PatchingInPlace
import WordMachine.Proofs.RegisterRows
import WordMachine.Proofs.PushPop
import WordMachine.Proofs.MultipleTransfers
import WordMachine.Proofs.ViewNumbers
import WordMachine.Proofs.ProductsAndQuotients
import WordMachine.Proofs.ExactArithmetic
import WordMachine.Proofs.StoredNumbers
import WordMachine.Proofs.MacroChains
import WordMachine.Proofs.Continuations
import WordMachine.Proofs.ParserCombinators
import WordMachine.Proofs.RegisterLists
import WordMachine.Proofs.HalfMoves
import WordMachine.Proofs.OverlappingViews
import WordMachine.Proofs.Comments
