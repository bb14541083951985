import AttestationChain.Bridge.Codecs
import AttestationChain.Bridge.Delivery
import AttestationChain.Bridge.Provenance
import AttestationChain.Bridge.Reading
import AttestationChain.Bridge.Wire
import AttestationChain.Collator.Atomicity
import AttestationChain.Collator.Candidacy
import AttestationChain.Collator.Capacity
import AttestationChain.Collator.Kick
import AttestationChain.Collator.NoDuplicates
import AttestationChain.Collator.Pot
import AttestationChain.Collator.Reward
import AttestationChain.Collator.Seats
import AttestationChain.Collator.Session
import AttestationChain.Dcap.Bounds
import AttestationChain.Dcap.Json.Alike
import AttestationChain.Dcap.Json.Insertion
import AttestationChain.Dcap.Json.Members
import AttestationChain.Dcap.Json.Numerals
import AttestationChain.Dcap.Json.Reread
import AttestationChain.Http.Segmentation
import AttestationChain.Machinery.Runs
import AttestationChain.Verifier.Freshness
import AttestationChain.Verifier.Identity
import AttestationChain.Verifier.Integrity
import AttestationChain.Verifier.Queue
import AttestationChain.Verifier.Replay
import AttestationChain.Verifier.Reports
