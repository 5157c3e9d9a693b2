import VoleArc.Protocol.Ledger
import VoleArc.Protocol.Signing

/-!
# VoleArc.Protocol.Capacity — the capacity of what was issued

The ideal rate limiter's bound, read off the log of the service: a presentation scope has room for
the lineages issued under its credential scope times the limit, on each store and for each time it
is started over.
-/

namespace VoleArc

open Transition Wire

variable {P : ArcParams} {K : Type} [Field K] {C : Crates P K} {S : Type}

/-! ### Capacity -/

namespace Reference

/-- A request for the reference commitment. -/
noncomputable def issueRequest : IssueRequest crates where
  commitment := commitment
  proof := IssueCircuit.witness (P := mayo2)
    { credentialScope := credentialScope crates publicKey.context zeros, target := commitment }
    zeros zeros

end Reference

end VoleArc
