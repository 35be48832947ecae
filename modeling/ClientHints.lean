import ClientHints.Main
import ClientHints.Proofs.Converter.Fidelity
import ClientHints.Proofs.Converter.Truncation
import ClientHints.Proofs.Schema.Translation
import ClientHints.Proofs.Base64.Canonical
import ClientHints.Proofs.Evidence.History
import ClientHints.Proofs.Schema.Partial
import ClientHints.Proofs.Converter.Recognition
import ClientHints.Proofs.Evidence.Serialization
import ClientHints.Proofs.Converter.Reuse
import ClientHints.Proofs.CommandLine.Arguments
import ClientHints.Proofs.CommandLine.Handover
import ClientHints.Proofs.Base64.Faults
import ClientHints.Proofs.Schema.PlatformVersion
import ClientHints.Proofs.Converter.Account
import ClientHints.Proofs.Converter.Requoting
import ClientHints.Proofs.Converter.Keys
import ClientHints.Proofs.StructuredField.Unambiguous
