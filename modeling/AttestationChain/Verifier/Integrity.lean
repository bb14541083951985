import AttestationChain.Verifier.Validity

/-!
# Verifier/Integrity — every recorded report is what its signer signed, and stays

Two facts about every run from empty storage, with or without the gate.

* `Intact` is an invariant of `step`: a report is recorded under the account and the key it names,
  its signer is registered *now*, and its signature verifies.
* `Extends` is respected by `step`: the registered keys and each list of results only ever grow at
  the tail.

The first needs the second in one place — a key registered when a report was recorded is registered
still (`Intact.of_extends`).
-/

namespace Verifier

open Runs

variable {AccountId Public Signature : Type} [DecidableEq AccountId] [DecidableEq Public]
  (c : Config AccountId Public Signature)

/-- **A later state extends an earlier one**: keys and results grow by appending. -/
structure Extends (s s' : State AccountId Public Signature) : Prop where
  publicKeys : s.publicKeys <+: s'.publicKeys
  results : ∀ who pubkey, s.results who pubkey <+: s'.results who pubkey

omit [DecidableEq Public] in
theorem Extends.refl (s : State AccountId Public Signature) : Extends s s :=
  ⟨List.prefix_rfl, fun _ _ => List.prefix_rfl⟩

omit [DecidableEq Public] in
theorem Extends.trans {s s' s'' : State AccountId Public Signature} (h : Extends s s')
    (h' : Extends s' s'') : Extends s s'' :=
  ⟨h.publicKeys.trans h'.publicKeys, fun who pubkey =>
    (h.results who pubkey).trans (h'.results who pubkey)⟩

omit [DecidableEq Public] in
theorem extends_record (s : State AccountId Public Signature)
    (p : RegisterPayload Public AccountId) (sig : Signature) : Extends s (s.record p sig) := by
  refine ⟨List.prefix_rfl, fun who pubkey => ?_⟩
  rw [State.results_record]
  split_ifs
  · exact List.prefix_append _ _
  · exact List.prefix_rfl

/-- **Every step extends the state it starts from.** -/
theorem extends_step (s : State AccountId Public Signature)
    (a : Step AccountId Public Signature) : Extends s (step c s a) := by
  rcases step_cases c s a with ⟨-, h⟩ | h | ⟨who, ev, -, h⟩ | ⟨n, p, sig, -, -, -, h⟩ |
    ⟨k, -, h⟩ <;>
    rw [h]
  · exact ⟨List.prefix_rfl, fun _ _ => List.prefix_rfl⟩
  · exact Extends.refl s
  · exact ⟨List.prefix_rfl, fun _ _ => List.prefix_rfl⟩
  · exact extends_record s p sig
  · exact ⟨List.prefix_append _ _, fun _ _ => List.prefix_rfl⟩

/-- A run extends the state it starts from. -/
theorem extends_run (s : State AccountId Public Signature)
    (tr : List (Step AccountId Public Signature)) : Extends s (run (step c) s tr) :=
  rel_run Extends.refl Extends.trans (extends_step c) s tr

/-- **A report is intact** in a state, under an account and a key: it names both, its signer is
registered and its signature verifies. -/
structure Intact (s : State AccountId Public Signature) (who : AccountId) (pubkey : Bytes)
    (e : RegisterPayloadWithSignature Public Signature AccountId) : Prop where
  who : e.payload.who = who
  pubkey : e.payload.pubkey = pubkey
  registered : ⟨e.payload.publicKey⟩ ∈ s.publicKeys
  verified : c.verify e.payload e.signature = true

variable {c} in
omit [DecidableEq Public] in
/-- A key that was registered is registered still. -/
theorem Intact.of_extends {s s' : State AccountId Public Signature} {who : AccountId}
    {pubkey : Bytes} {e : RegisterPayloadWithSignature Public Signature AccountId}
    (h : Intact c s who pubkey e) (hext : Extends s s') : Intact c s' who pubkey e :=
  ⟨h.who, h.pubkey, hext.publicKeys.subset h.registered, h.verified⟩

/-- Every recorded report is intact. -/
def AllIntact (s : State AccountId Public Signature) : Prop :=
  ∀ who pubkey, ∀ e ∈ s.results who pubkey, Intact c s who pubkey e

/-- **A step keeps every report intact**: the one it may add is checked, the others were. -/
theorem allIntact_step (s : State AccountId Public Signature)
    (a : Step AccountId Public Signature) (hs : AllIntact c s) : AllIntact c (step c s a) := by
  intro who pubkey e he
  have hext := extends_step c s a
  by_cases hold : e ∈ s.results who pubkey
  · exact (hs who pubkey e hold).of_extends hext
  -- Only a report just recorded is new.
  rcases step_cases c s a with ⟨-, h⟩ | h | ⟨w, ev, -, h⟩ | ⟨n, p, sig, -, hkey, hsig, h⟩ |
    ⟨k, -, h⟩ <;> rw [h] at he
  · exact absurd he hold
  · exact absurd he hold
  · exact absurd he hold
  · rw [State.results_record] at he
    split_ifs at he with hnames
    · obtain ⟨rfl, rfl⟩ := Prod.mk.inj hnames
      have hnew : e = ⟨p, sig⟩ := by simpa [hold] using he
      subst hnew
      exact ⟨rfl, rfl, hext.publicKeys.subset hkey, hsig⟩
    · exact absurd he hold
  · exact absurd he hold

omit [DecidableEq Public] in
theorem allIntact_genesis (n : ℕ) :
    AllIntact c (State.genesis n : State AccountId Public Signature) := by
  intro who pubkey e he
  rw [State.results_genesis] at he
  cases he

/-- **Integrity of recorded results.**  In every state a run from empty storage reaches, every
recorded report names the account and the key it is recorded under, is signed by a key registered in
that state, and verifies; and whatever runs on from there only appends to the registered keys and to
each list of results. -/
theorem results_integrity (n : ℕ) (pre suf : List (Step AccountId Public Signature)) :
    AllIntact c (run (step c) (State.genesis n) pre) ∧
      Extends (run (step c) (State.genesis n) pre)
      (run (step c) (State.genesis n) (pre ++ suf)) := by
  refine ⟨invariant_run' (allIntact_step c) pre (allIntact_genesis c n), ?_⟩
  rw [run_append]
  exact extends_run c _ suf

end Verifier
