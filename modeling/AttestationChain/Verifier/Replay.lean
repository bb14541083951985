import AttestationChain.Verifier.Integrity
import AttestationChain.Verifier.Worker
import Mathlib.Data.List.Dedup

/-!
# Verifier/Replay — how often one report can count

Nothing in the dispatch looks at what is recorded already, so a report counts as often as it is
included.  Two results say what a run owes to the includer.

* `nodup_results_iff` — no list of results holds an entry twice exactly if no call is included that
  carries an entry recorded already.
* `count_le_evidences` — the reports of one key with one payload are at most as many as the queued
  evidences that yielded the payload, if every report of that key is the *first* one recorded for
  some evidence it was signed for.

The second is about what was signed where, so it is about runs of a `World`: a chain, with the
reports its workers signed.
-/

namespace Verifier

open Runs

variable {AccountId Public Signature : Type} [DecidableEq AccountId] [DecidableEq Public]

/-! ## The chain and its workers -/

/-- A chain, with every report its workers signed so far. -/
structure World (AccountId Public Signature : Type) where
  chain : State AccountId Public Signature
  signed : List (SignedReport AccountId Public Signature)

/-- A world at genesis. -/
def World.genesis (n : ℕ) : World AccountId Public Signature := ⟨State.genesis n, []⟩

/-- What happens next: a step of the chain, or a run of some node's worker for the block under way —
any number of them. -/
inductive WorldStep (AccountId Public Signature : Type)
  | chain (a : Step AccountId Public Signature)
  | worker (isValidator : Bool) (hosts : ℕ → Host AccountId Public Signature)

variable (c : Config AccountId Public Signature) (env : Env AccountId)

def worldStep (w : World AccountId Public Signature) :
    WorldStep AccountId Public Signature → World AccountId Public Signature
  | .chain a => { w with chain := step c w.chain a }
  | .worker isValidator hosts =>
    { w with
      signed := w.signed ++ signedReports w.chain.blockNumber
        (offchainWorker env isValidator hosts w.chain w.chain.blockNumber) }

/-- A condition on the reports a run includes, each in the world that includes it. -/
def OnSubmit (ok : World AccountId Public Signature → RegisterPayload Public AccountId →
    Signature → Prop) (w : World AccountId Public Signature) :
    WorldStep AccountId Public Signature → Prop
  | .chain (.extrinsic .none (.submitResultUnsignedWithSignedPayload _ p sig)) => ok w p sig
  | _ => True

omit [DecidableEq AccountId] [DecidableEq Public] in
theorem onSubmit_iff {ok : World AccountId Public Signature → RegisterPayload Public AccountId →
    Signature → Prop} {w : World AccountId Public Signature}
    {a : WorldStep AccountId Public Signature} : OnSubmit ok w a ↔
      ∀ n p sig, a = .chain (.extrinsic .none (.submitResultUnsignedWithSignedPayload n p sig)) →
        ok w p sig := by
  rw [OnSubmit.eq_def]
  split
  · rename_i n p sig
    exact ⟨fun h n' p' sig' heq => by cases heq; exact h, fun h => h n p sig rfl⟩
  · rename_i hno
    exact ⟨fun _ n p sig heq => absurd heq (hno n p sig), fun _ => trivial⟩

/-- The gate, as a guard of worlds. -/
def WorldIncluded (w : World AccountId Public Signature) :
    WorldStep AccountId Public Signature → Prop
  | .chain a => Included c w.chain a
  | .worker _ _ => True

/-- **What a step does to a list of results**: nothing, or it records a report it includes. -/
theorem worldStep_results (w : World AccountId Public Signature)
    (a : WorldStep AccountId Public Signature) :
    ((worldStep c env w a).chain.results = w.chain.results) ∨
    ∃ n p sig, a = .chain (.extrinsic .none (.submitResultUnsignedWithSignedPayload n p sig)) ∧
      worldStep c env w a = { w with chain := w.chain.record p sig } := by
  cases a with
  | worker isValidator hosts => exact .inl rfl
  | chain a =>
    rcases step_cases c w.chain a with ⟨-, h⟩ | h | ⟨who, ev, -, h⟩ | ⟨n, p, sig, rfl, -, -, h⟩ |
      ⟨k, -, h⟩
    · exact .inl (by rw [worldStep, h]; rfl)
    · exact .inl (by rw [worldStep, h])
    · exact .inl (by rw [worldStep, h]; rfl)
    · exact .inr ⟨n, p, sig, rfl, by rw [worldStep, h]⟩
    · exact .inl (by rw [worldStep, h]; rfl)

/-- Whatever happens, recorded reports stay intact. -/
theorem worldStep_allIntact (w : World AccountId Public Signature)
    (a : WorldStep AccountId Public Signature) (hw : AllIntact c w.chain) :
    AllIntact c (worldStep c env w a).chain := by
  cases a with
  | chain a => exact allIntact_step c w.chain a hw
  | worker isValidator hosts => exact hw

/-! ## Entries recorded twice -/

/-- No list of results holds an entry twice. -/
def NoDuplicates (w : World AccountId Public Signature) : Prop :=
  ∀ who pubkey, (w.chain.results who pubkey).Nodup

/-- The report is not recorded yet. -/
def Unrecorded (w : World AccountId Public Signature) (p : RegisterPayload Public AccountId)
    (sig : Signature) : Prop := ⟨p, sig⟩ ∉ w.chain.results p.who p.pubkey

/-- **One step makes a duplicate just if it includes a report recorded already** — a recorded report
is under a registered key and verifies, so it is recorded again. -/
theorem noDuplicates_step_iff (w : World AccountId Public Signature)
    (a : WorldStep AccountId Public Signature) (hw : AllIntact c w.chain)
    (hdup : NoDuplicates w) :
    NoDuplicates (worldStep c env w a) ↔ OnSubmit Unrecorded w a := by
  rw [onSubmit_iff]
  constructor
  · rintro h n p sig rfl hmem
    have hintact := hw p.who p.pubkey _ hmem
    have hstep : worldStep c env w (.chain (.extrinsic .none
        (.submitResultUnsignedWithSignedPayload n p sig))) = ⟨w.chain.record p sig, w.signed⟩ := by
      rw [worldStep, step, submit_eq_record c _ n hintact.registered hintact.verified]
    have hnodup := h p.who p.pubkey
    rw [hstep, State.results_record, if_pos rfl] at hnodup
    exact (List.nodup_append.1 hnodup).2.2 _ hmem _ (by simp) rfl
  · intro h who pubkey
    rcases worldStep_results c env w a with hsame | ⟨n, p, sig, ha, hrec⟩
    · rw [hsame]
      exact hdup who pubkey
    · rw [hrec, State.results_record]
      split_ifs with hnames
      · obtain ⟨rfl, rfl⟩ := Prod.mk.inj hnames
        refine List.nodup_append.2 ⟨hdup _ _, by simp, fun e he e' he' heq => ?_⟩
        rw [List.mem_singleton.1 he'] at heq
        exact h n p sig ha (heq ▸ he)
      · exact hdup who pubkey

/-- **Runs without duplicates**: those that include no report recorded already. -/
theorem nodup_results_iff (n₀ : ℕ) (tr : List (WorldStep AccountId Public Signature)) :
    Guarded (worldStep c env) (OnSubmit Unrecorded) (World.genesis n₀) tr ↔
      ∀ pre suf, tr = pre ++ suf → NoDuplicates (run (worldStep c env) (World.genesis n₀) pre) :=
  guarded_iff (worldStep_allIntact c env) (noDuplicates_step_iff c env) (allIntact_genesis c n₀)
    fun who pubkey => by rw [World.genesis, State.results_genesis]; exact List.nodup_nil

/-! ## Reports and the evidences they were signed for -/

/-- The queued evidences that yielded a payload, each once: those a worker signed it for. -/
def evidencesFor [DecidableEq Signature] (w : World AccountId Public Signature)
    (p : RegisterPayload Public AccountId) : List (QueuedEvidence AccountId) :=
  ((w.signed.filter fun r => r.report.payload = p).map SignedReport.queued).dedup

/-- The reports recorded with a payload, under an account and a key. -/
def reportsWith (w : World AccountId Public Signature) (who : AccountId) (pubkey : Bytes)
    (p : RegisterPayload Public AccountId) : ℕ :=
  (w.chain.results who pubkey).countP fun e => e.payload = p

/-- **A report of the key's owner**: if the payload names the key, some worker signed the report in
one of its runs. -/
def SignedInWorker (key : Public) (w : World AccountId Public Signature)
    (p : RegisterPayload Public AccountId) (sig : Signature) : Prop :=
  p.publicKey = key → ∃ r ∈ w.signed, r.report = ⟨p, sig⟩

/-- **The first report for an evidence**: if the payload names the key, the report was signed for
some evidence no recorded report with the payload was signed for. -/
def FirstForEvidence (key : Public) (w : World AccountId Public Signature)
    (p : RegisterPayload Public AccountId) (sig : Signature) : Prop :=
  p.publicKey = key → ∃ r ∈ w.signed, r.report = ⟨p, sig⟩ ∧
    ∀ r' ∈ w.signed, r'.queued = r.queued → r'.report.payload = p →
      r'.report ∉ w.chain.results p.who p.pubkey

/-- **Every report of a key is accounted for**: each with a payload by an evidence of its own, for
which a recorded report with the payload was signed. -/
def Accounted (key : Public) (w : World AccountId Public Signature) : Prop :=
  ∀ p : RegisterPayload Public AccountId, p.publicKey = key →
    ∃ qs : List (QueuedEvidence AccountId), qs.Nodup ∧ qs.length = reportsWith w p.who p.pubkey p ∧
    ∀ q ∈ qs, ∃ r ∈ w.signed, r.queued = q ∧ r.report.payload = p ∧
      r.report ∈ w.chain.results p.who p.pubkey

/-- **A step keeps the account**: what it records is charged to the evidence it is the first for. -/
theorem accounted_step (key : Public) (w : World AccountId Public Signature)
    (a : WorldStep AccountId Public Signature) (hw : Accounted key w)
    (ha : OnSubmit (FirstForEvidence key) w a) : Accounted key (worldStep c env w a) := by
  rw [onSubmit_iff] at ha
  intro p hp
  obtain ⟨qs, hnodup, hlen, hqs⟩ := hw p hp
  rcases worldStep_results c env w a with hsame | ⟨n, p', sig, hsub, hrec⟩
  · have hsigned : w.signed ⊆ (worldStep c env w a).signed := by
      cases a with
      | chain a => exact List.Subset.refl _
      | worker isValidator hosts => exact List.subset_append_left _ _
    refine ⟨qs, hnodup, by rw [hlen, reportsWith, reportsWith, hsame], fun q hq => ?_⟩
    obtain ⟨r, hr, hrq, hrp, hrec⟩ := hqs q hq
    exact ⟨r, hsigned hr, hrq, hrp, by rw [hsame]; exact hrec⟩
  · rw [hrec]
    have hold : ∀ q ∈ qs, ∃ r ∈ w.signed, r.queued = q ∧ r.report.payload = p ∧
        r.report ∈ (w.chain.record p' sig).results p.who p.pubkey := by
      intro q hq
      obtain ⟨r, hr, hrq, hrp, hmem⟩ := hqs q hq
      exact ⟨r, hr, hrq, hrp, ((extends_record w.chain p' sig).results _ _).subset hmem⟩
    by_cases hpp : p = p'
    · subst hpp
      obtain ⟨r, hr, hreport, hfirst⟩ := ha n p sig hsub hp
      have hnew : r.queued ∉ qs := by
        intro hq
        obtain ⟨r', hr', hrq, hrp, hmem⟩ := hqs _ hq
        exact hfirst r' hr' hrq hrp hmem
      have hresults : (w.chain.record p sig).results p.who p.pubkey
          = w.chain.results p.who p.pubkey ++ [⟨p, sig⟩] := by
        rw [State.results_record, if_pos rfl]
      refine ⟨r.queued :: qs, List.nodup_cons.2 ⟨hnew, hnodup⟩, ?_, fun q hq => ?_⟩
      · rw [reportsWith, hresults, List.countP_append, List.length_cons, hlen, reportsWith]
        simp
      · rcases List.mem_cons.1 hq with rfl | hq
        · exact ⟨r, hr, rfl, by rw [hreport], by rw [hresults, hreport]; simp⟩
        · exact hold q hq
    · refine ⟨qs, hnodup, ?_, hold⟩
      rw [hlen, reportsWith, reportsWith, State.results_record]
      split_ifs
      · rw [List.countP_append]
        simp [Ne.symm hpp]
      · rfl

/-- **At most as many reports as evidences.** -/
theorem count_le_evidences [DecidableEq Signature] {key : Public}
    {w : World AccountId Public Signature} (hw : Accounted key w) (hintact : AllIntact c w.chain)
    (who : AccountId) (pubkey : Bytes) {p : RegisterPayload Public AccountId}
    (hp : p.publicKey = key) : reportsWith w who pubkey p ≤ (evidencesFor w p).length := by
  by_cases hnames : (who, pubkey) = (p.who, p.pubkey)
  · obtain ⟨rfl, rfl⟩ := Prod.mk.inj hnames
    obtain ⟨qs, hnodup, hlen, hqs⟩ := hw p hp
    rw [← hlen]
    refine (List.subperm_of_subset hnodup fun q hq => ?_).length_le
    obtain ⟨r, hr, hrq, hrp, -⟩ := hqs q hq
    rw [evidencesFor, List.mem_dedup]
    exact List.mem_map.2 ⟨r, List.mem_filter.2 ⟨hr, by simpa using hrp⟩, hrq⟩
  · -- Elsewhere no report has the payload.
    have hzero : reportsWith w who pubkey p = 0 := by
      refine List.countP_eq_zero.2 fun e he hpay => hnames ?_
      have hpay : e.payload = p := by simpa using hpay
      have := hintact who pubkey e he
      rw [← this.who, ← this.pubkey, hpay]
    omega

/-- **No replay of a verifier's report.**  In every run from genesis, of the chain and of any number
of worker runs: no list of results ever holds an entry twice if and only if no report is included
that is recorded already; and if every included report of a key is the first for some evidence a
worker signed it for, the key's reports with one payload are never more than the queued evidences
that yielded the payload. -/
theorem no_replay [DecidableEq Signature] (n₀ : ℕ)
    (tr : List (WorldStep AccountId Public Signature)) (key : Public) :
    (Guarded (worldStep c env) (OnSubmit Unrecorded) (World.genesis n₀) tr ↔
      ∀ pre suf, tr = pre ++ suf → NoDuplicates (run (worldStep c env) (World.genesis n₀) pre)) ∧
    (Guarded (worldStep c env) (OnSubmit (FirstForEvidence key)) (World.genesis n₀) tr →
      ∀ pre suf, tr = pre ++ suf → ∀ who pubkey (p : RegisterPayload Public AccountId),
        p.publicKey = key →
          reportsWith (run (worldStep c env) (World.genesis n₀) pre) who pubkey p
            ≤ (evidencesFor (run (worldStep c env) (World.genesis n₀) pre) p).length) := by
  refine ⟨nodup_results_iff c env n₀ tr, ?_⟩
  rintro hfirst pre suf rfl who pubkey p hp
  have hgenesis : Accounted key (World.genesis n₀ : World AccountId Public Signature) :=
    fun p _ => ⟨[], List.nodup_nil, by simp [reportsWith, World.genesis], by simp⟩
  have haccount := invariant_run (accounted_step c env key) hfirst.of_append hgenesis
  have hintact : AllIntact c (run (worldStep c env) (World.genesis n₀) pre).chain :=
    invariant_run' (worldStep_allIntact c env) pre (allIntact_genesis c n₀)
  exact count_le_evidences c haccount hintact who pubkey hp

/-- A report, submitted again in the block that recorded it, is recorded again. -/
theorem report_replayed :
    ¬ ∀ (c : Config ℕ ℕ ℕ) (env : Env ℕ) (n₀ : ℕ) (tr : List (WorldStep ℕ ℕ ℕ)) (key : ℕ),
      Guarded (worldStep c env) (WorldIncluded c) (World.genesis n₀) tr →
      Guarded (worldStep c env) (OnSubmit (SignedInWorker key)) (World.genesis n₀) tr →
      ∀ pre suf, tr = pre ++ suf →
        NoDuplicates (run (worldStep c env) (World.genesis n₀) pre) ∧
        ∀ who pubkey (p : RegisterPayload ℕ ℕ), p.publicKey = key →
          reportsWith (run (worldStep c env) (World.genesis n₀) pre) who pubkey p
            ≤ (evidencesFor (run (worldStep c env) (World.genesis n₀) pre) p).length := by
  intro h
  let p : RegisterPayload ℕ ℕ := ⟨ascii "c0de", 1, ascii "cafe", 0⟩
  let submit : WorldStep ℕ ℕ ℕ :=
    .chain (.extrinsic .none (.submitResultUnsignedWithSignedPayload 1 p 0))
  have hdup := (h ⟨5, 600, 2 ^ 20, fun p sig => sig = p.publicKey⟩
    ⟨fun _ => none, fun _ => none, Iteration.id _⟩ 0
    [.chain .newBlock, .chain (.extrinsic .root (.registerNewPubkey 0)), submit, submit] 1
    ⟨trivial, trivial, rfl, rfl, trivial⟩
    ⟨trivial, trivial, fun hp => absurd hp (by decide), fun hp => absurd hp (by decide), trivial⟩
    _ [] (List.append_nil _).symm).1
  exact absurd (hdup 1 (ascii "cafe")) (by decide)

end Verifier
