import PropAccord.Editor.Server
import PropAccord.Main
import PropAccord.Proofs.Completion
import PropAccord.Proofs.Utf8
import PropAccord.Proofs.Places
import PropAccord.Proofs.Writing
import PropAccord.Proofs.DefinitionHeads
import PropAccord.Proofs.Widening
import PropAccord.Proofs.Passes
import PropAccord.Proofs.Consent
import PropAccord.Proofs.Bytes
import PropAccord.Proofs.Documents
import PropAccord.Proofs.KeptTags
import PropAccord.Proofs.AcceptedSaves
import PropAccord.Proofs.KeptDefinitions
import PropAccord.Proofs.SavingAgain
import PropAccord.Proofs.TagLookup
import PropAccord.Proofs.PassLists
import PropAccord.Proofs.Discovered
import PropAccord.Proofs.Confinement
import PropAccord.Proofs.Faultless
import PropAccord.Proofs.Splices
import PropAccord.Proofs.Positions
import PropAccord.Proofs.CodeUnits
import PropAccord.Proofs.DefinitionLookup
import PropAccord.Proofs.Globs
import PropAccord.Proofs.FailureReports
import PropAccord.Proofs.Listings
import PropAccord.Proofs.PlainTags
import PropAccord.Proofs.WidenedLists
import PropAccord.Proofs.FileUris
import PropAccord.Proofs.DefinitionGrammar
import PropAccord.Proofs.Alternatives
import PropAccord.Proofs.TagScan
import PropAccord.Proofs.Declarations
import PropAccord.Proofs.TestFiles
import PropAccord.Proofs.ScanOrder
