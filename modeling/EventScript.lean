import EventScript.Assembly
import EventScript.Cli.Compiler
import EventScript.Command.Document
import EventScript.Listing
import EventScript.Main
import EventScript.Proofs.Direct
import EventScript.Proofs.Slots
import EventScript.Proofs.Word
import EventScript.Proofs.Contribution
import EventScript.Proofs.Emission
import EventScript.Proofs.BackPatching
import EventScript.Proofs.Reports
import EventScript.Proofs.WellFormed
import EventScript.Proofs.Bytecode
import EventScript.Proofs.RoundTrip
import EventScript.Proofs.Exactness
import EventScript.Proofs.Run
import EventScript.Proofs.Readdressing
import EventScript.Proofs.Extension
import EventScript.Proofs.Insertion
import EventScript.Proofs.Renaming
import EventScript.Proofs.Physical
import EventScript.Proofs.Quoting
import EventScript.Proofs.Wording
import EventScript.Proofs.Layout
import EventScript.Proofs.Quotation
import EventScript.Proofs.ListingRows
import EventScript.Proofs.Inputs
import EventScript.Proofs.Resolution
import EventScript.Proofs.Attempt
import EventScript.Proofs.Truncation
import EventScript.Proofs.Arguments
import EventScript.Proofs.Delivery
import EventScript.Proofs.Integer
import EventScript.Proofs.Location
import EventScript.Proofs.Tokens
import EventScript.Proofs.Agreement
import EventScript.Proofs.Either
import EventScript.Proofs.LetterCase
import EventScript.Proofs.Loading
import EventScript.Proofs.Mnemonics
import EventScript.Proofs.BlankLines
import EventScript.Proofs.SymbolDump
import EventScript.Proofs.ArgumentOrder
import EventScript.Proofs.ListingSafety
import EventScript.Proofs.StringPayload
import EventScript.Proofs.SymbolHistory
