import AttestationChain.Collator.Session

/-!
# Collator/Pipeline — from the list a rotation names to the session it serves

What the session pallet makes of this one is a pipeline: the list named at a rotation is queued for
one period and active for the next, so whatever is true of every list that is named is true of every
session that starts more than a period behind (`sessions_of_named`).  And whatever the pallet keeps
to, under its calls and everything else, the chain around it keeps to (`chainStep_induct`), so what
is true of the lists named in such states is true of those the rotations name (`names_of_kept`).
-/

namespace Collator

open Runs

variable {AccountId ValidatorId Ledger : Type} [DecidableEq AccountId]
  (c : Config AccountId ValidatorId Ledger) (authorshipFirst : Bool)

/-! ## The pipeline -/

/-- **What a run has named is of a kind**: each rotation queues a list that is. -/
def Names (P : List AccountId → Prop) (ch : Chain AccountId Ledger) :
    ChainStep AccountId Ledger → Prop
  | .onInitialize author => c.kickThreshold ∣ ch.pallet.blockNumber + 1 →
      P (chainStep c authorshipFirst ch (.onInitialize author)).queued
  | _ => True

/-- **The sessions since**: those of a run from a block, of which the ones that start more than a
period behind it have collators of a kind — and so have the ones queued, a rotation behind it. -/
structure Since (P : List AccountId → Prop) (n₀ : ℕ) (old : List (ℕ × List AccountId))
    (ch : Chain AccountId Ledger) : Prop where
  le : n₀ ≤ ch.pallet.blockNumber
  queued : ∀ u, c.kickThreshold ∣ u → n₀ < u → u ≤ ch.pallet.blockNumber → P ch.queued
  sessions : ∃ new, ch.sessions = old ++ new ∧
    ∀ start ∈ new, n₀ + c.kickThreshold < start.1 → P start.2

variable {c authorshipFirst} {P : List AccountId → Prop} {n₀ : ℕ} {old : List (ℕ × List AccountId)}

/-- **A step moves the pipeline on.** -/
theorem since_step (ch : Chain AccountId Ledger) (a : ChainStep AccountId Ledger)
    (hch : Since c P n₀ old ch) (hnames : Names c authorshipFirst P ch a) :
    Since c P n₀ old (chainStep c authorshipFirst ch a) := by
  obtain ⟨new, hnew, hkind⟩ := hch.sessions
  cases a with
  | outside ledger => exact ⟨hch.le, hch.queued, new, hnew, hkind⟩
  | call origin call =>
    have hnum := blockNumber_dispatch c ch.pallet origin call
    exact ⟨hch.le.trans hnum.ge, fun u hu hlt hle => hch.queued u hu hlt (hle.trans hnum.le), new,
      hnew, hkind⟩
  | onInitialize author =>
    obtain ⟨hnum, hskip, hrot, -⟩ := onInitialize_spec c c.accountId authorshipFirst ch author
    by_cases hdvd : c.kickThreshold ∣ ch.pallet.blockNumber + 1
    · refine ⟨hnum ▸ hch.le.trans (Nat.le_succ _), fun _ _ _ _ => hnames hdvd,
        new ++ [(ch.pallet.blockNumber + 1, ch.queued)], ?_, fun start hstart hlate => ?_⟩
      · rw [hrot hdvd, hnew, List.append_assoc]
      · rcases List.mem_append.1 hstart with hstart | hstart
        · exact hkind start hstart hlate
        -- The list that becomes active was named a period before.
        obtain rfl := List.mem_singleton.1 hstart
        have hprev : c.kickThreshold ∣ ch.pallet.blockNumber + 1 - c.kickThreshold :=
          Nat.dvd_sub hdvd (Nat.dvd_refl _)
        refine hch.queued _ hprev (Nat.lt_sub_of_add_lt hlate) ?_
        have hpos : 0 < c.kickThreshold := Nat.pos_of_dvd_of_pos hdvd (Nat.succ_pos _)
        omega
    · obtain ⟨-, hqueued, hsessions⟩ := hskip hdvd
      refine ⟨hnum ▸ hch.le.trans (Nat.le_succ _), fun u hu hlt hle => ?_, new,
        hsessions.trans hnew, hkind⟩
      rw [hqueued]
      rw [hnum] at hle
      refine hch.queued u hu hlt (Nat.le_of_lt_succ (lt_of_le_of_ne hle ?_))
      rintro rfl
      exact hdvd hu

/-- **The pipeline.**  Where every rotation of a run names a list of a kind, every session of the
run that starts more than a period behind its first block has active collators of that kind. -/
theorem sessions_of_named (ch : Chain AccountId Ledger) {tr : List (ChainStep AccountId Ledger)}
    (h : Guarded (chainStep c authorshipFirst) (Names c authorshipFirst P) ch tr) :
    ∃ new, (run (chainStep c authorshipFirst) ch tr).sessions = ch.sessions ++ new ∧
      ∀ start ∈ new, ch.pallet.blockNumber + c.kickThreshold < start.1 → P start.2 := by
  have hstart : Since c P ch.pallet.blockNumber ch.sessions ch :=
    ⟨le_rfl, fun u _ hlt hle => absurd hle (Nat.not_le.2 hlt), [], (List.append_nil _).symm,
      fun _ h => absurd h List.not_mem_nil⟩
  exact (invariant_run since_step h hstart).sessions

/-! ## The pallet under the chain -/

/-- A condition on the calls of a run, each in the pallet it is dispatched in. -/
def OnCalls (ok : State AccountId Ledger → Origin AccountId → Call AccountId → Prop)
    (ch : Chain AccountId Ledger) : ChainStep AccountId Ledger → Prop
  | .call origin call => ok ch.pallet origin call
  | _ => True

section Kept

variable {I : State AccountId Ledger → Prop}
  {ok : State AccountId Ledger → Origin AccountId → Call AccountId → Prop}

/-- **What the pallet keeps, initializing a block keeps** — and a rotation in it names the
collators of a state that has it. -/
theorem onInitialize_induct
    (hrest : ∀ s a, (∀ origin call, a ≠ .call origin call) → I s → I (step c s a))
    (ch : Chain AccountId Ledger) (author : Option AccountId) (hch : I ch.pallet) :
    let ch' := chainStep c authorshipFirst ch (.onInitialize author)
    I ch'.pallet ∧ (c.kickThreshold ∣ ch.pallet.blockNumber + 1 →
      ∃ s, I s ∧ ch'.queued = (newSession c s).2) := by
  intro ch'
  have hopened : I ch.opened.pallet := hrest ch.pallet .newBlock (fun _ _ h => by cases h) hch
  have hnote : ∀ ch₁ : Chain AccountId Ledger, I ch₁.pallet → I (ch₁.note c author).pallet := by
    intro ch₁ h
    cases author with
    | none => exact h
    | some author => exact hrest _ (.noteAuthor author) (fun _ _ h => by cases h) h
  have hrotate : ∀ ch₁ : Chain AccountId Ledger, I ch₁.pallet → I (ch₁.rotate c).pallet ∧
      (c.kickThreshold ∣ ch₁.pallet.blockNumber →
        (ch₁.rotate c).queued = (newSession c ch₁.pallet).2) := by
    intro ch₁ h
    rw [Chain.rotate]
    split_ifs with hdvd
    · exact ⟨hrest _ .newSession (fun _ _ h => by cases h) h, fun _ => rfl⟩
    · exact ⟨h, fun h => absurd h hdvd⟩
  cases authorshipFirst with
  | false =>
    obtain ⟨hkept, hqueued⟩ := hrotate ch.opened hopened
    have hsame := (note_spec c c.accountId (ch.opened.rotate c) author).2.2.1
    exact ⟨hnote _ hkept, fun hdvd => ⟨_, hopened, hsame.trans (hqueued hdvd)⟩⟩
  | true =>
    have hnum := (note_spec c c.accountId ch.opened author).2.1
    obtain ⟨hkept, hqueued⟩ := hrotate (ch.opened.note c author) (hnote _ hopened)
    rw [hnum] at hqueued
    exact ⟨hkept, fun hdvd => ⟨_, hnote _ hopened, hqueued hdvd⟩⟩

/-- What the pallet keeps, the chain keeps. -/
theorem chainStep_induct
    (hcall : ∀ s origin call, ok s origin call → I s → I (dispatch c s origin call).2)
    (hrest : ∀ s a, (∀ origin call, a ≠ .call origin call) → I s → I (step c s a))
    (ch : Chain AccountId Ledger) (a : ChainStep AccountId Ledger) (hch : I ch.pallet)
    (ha : OnCalls ok ch a) : I (chainStep c authorshipFirst ch a).pallet := by
  cases a with
  | onInitialize author => exact (onInitialize_induct hrest ch author hch).1
  | call origin call => exact hcall _ _ _ ha hch
  | outside ledger => exact hrest _ (.outside ledger) (fun _ _ h => by cases h) hch

/-- **What the pallet names of the states it keeps to**, the rotations of a run name. -/
theorem names_of_kept
    (hcall : ∀ s origin call, ok s origin call → I s → I (dispatch c s origin call).2)
    (hrest : ∀ s a, (∀ origin call, a ≠ .call origin call) → I s → I (step c s a))
    (hnames : ∀ s, I s → P (newSession c s).2) {ch : Chain AccountId Ledger}
    {tr : List (ChainStep AccountId Ledger)} (hch : I ch.pallet)
    (h : Guarded (chainStep c authorshipFirst) (OnCalls ok) ch tr) :
    Guarded (chainStep c authorshipFirst) (Names c authorshipFirst P) ch tr := by
  refine guarded_of_invariant (I := fun ch => I ch.pallet) (chainStep_induct hcall hrest)
    (fun ch a hI _ => ?_) h hch
  cases a with
  | onInitialize author =>
    intro hdvd
    obtain ⟨s, hs, hqueued⟩ := (onInitialize_induct hrest ch author hI).2 hdvd
    rw [hqueued]
    exact hnames s hs
  | call origin call => trivial
  | outside ledger => trivial

end Kept

end Collator
