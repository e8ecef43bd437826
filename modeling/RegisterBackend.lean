import RegisterBackend.Main
import RegisterBackend.Proofs.Alignment
import RegisterBackend.Proofs.Allotment
import RegisterBackend.Proofs.Casting
import RegisterBackend.Proofs.Decoding
import RegisterBackend.Proofs.Dereference
import RegisterBackend.Proofs.Hosting
import RegisterBackend.Proofs.Narrowing
import RegisterBackend.Proofs.Nesting
import RegisterBackend.Proofs.Refusal
import RegisterBackend.Proofs.Rejection
import RegisterBackend.Proofs.Remarks
