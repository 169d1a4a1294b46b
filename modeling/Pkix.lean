import Pkix.Name.Text
import Pkix.Name.Fields
import Pkix.Pem
import Pkix.Extension.Session
import Pkix.Key.Container
import Pkix.Key.Generate
import Pkix.Certificate.Request
import Pkix.Issuer
import Pkix.SignedData.Verify
import Pkix.Proofs.Refusals
import Pkix.Proofs.Rsa
import Pkix.Proofs.Dates
import Pkix.Proofs.Signed
import Pkix.Proofs.Certificate.Rewriting
import Pkix.Proofs.Der.Bits
import Pkix.Proofs.Der.Canonicity
import Pkix.Proofs.Der.Implicit
import Pkix.Proofs.Der.Integer
import Pkix.Proofs.Der.Sequence
import Pkix.Proofs.Der.Walk
import Pkix.Proofs.Extension.Raw
import Pkix.Proofs.Extension.Writing
import Pkix.Proofs.Issuer.Certificate
import Pkix.Proofs.Key.Reencoding
import Pkix.Proofs.Name.Fields
import Pkix.Proofs.Name.Lookup
import Pkix.Proofs.Name.Text
import Pkix.Proofs.Oid.Forms
import Pkix.Proofs.SignedData.Batch
import Pkix.Proofs.SignedData.Canonicity
import Pkix.Proofs.SignedData.Failures
import Pkix.Proofs.SignedData.Grammars
import Pkix.Proofs.SignedData.Limits
import Pkix.Proofs.SignedData.Lookup
import Pkix.Proofs.SignedData.SignerElements
import Pkix.Proofs.SignedData.Signing
import Pkix.Proofs.SignedData.Transport
import Pkix.Proofs.SignedData.Verbatim
import Pkix.Proofs.Time.Grammar
