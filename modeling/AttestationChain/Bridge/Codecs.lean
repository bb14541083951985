import AttestationChain.Dcap.Utils
import AttestationChain.Verifier.Decoding

/-!
# Bridge/Codecs — hexadecimal on the two sides

The service spells bytes and reads spellings, the chain reads what the service spells: all three are
the spelling and the reading of `Machinery/Hexadecimal`, on the texts that are hexadecimal.  The
service's reader is given a pointer and walks to a NUL, not to the length it is given; the NUL
behind a `std::string` keeps it within the block it allocates (`length_hexPairs_le_of_nul`).
-/

namespace Bridge

open Dcap Hexadecimal

/-- **What the service spells** is the lower-case spelling. -/
theorem hexstring_eq_spell (b : Bytes) : hexstring b = spell b := by
  have hbyte : ∀ v, hexByte v = [digit (v.toNat / 16), digit (v.toNat % 16)] :=
    forall_byte (by decide +kernel)
  rw [hexstring, spell]
  exact congrArg (fun f => b.flatMap f) (funext hbyte)

/-- **What the service reads** of hexadecimal text is what it spells. -/
theorem hexPairs_of_isText {s : Bytes} (h : IsText s) : hexPairs s = unspell s := by
  have hdigit : ∀ c : UInt8, IsDigit c → c ≠ 0 ∧ charToInt c = value c :=
    forall_byte (by decide +kernel)
  induction s using unspell.induct with
  | case1 a b s ih =>
    obtain ⟨ha, hb, hs⟩ := isText_cons_cons.1 h
    obtain ⟨ha0, hva⟩ := hdigit a ha
    obtain ⟨hb0, hvb⟩ := hdigit b hb
    rw [hexPairs, if_pos ⟨ha0, hb0⟩, ih hs, hva, hvb, unspell]
  | case2 s hs =>
    rcases s with _ | ⟨a, _ | ⟨b, s⟩⟩
    · rfl
    · rfl
    · exact absurd rfl (hs a b s)

theorem hexstringToBytes_of_isText {s : Bytes} (h : IsText s) :
    hexstringToBytes s = some (unspell s) := by
  have hlen : s.length / 2 - (unspell s).length = 0 := by
    have hspell := congrArg List.length (spell_unspell h)
    rw [length_spell, List.length_map] at hspell
    omega
  rw [hexstringToBytes, if_neg (by simp [h.1]), hexPairs_of_isText h, hlen, List.replicate_zero,
    List.append_nil]

/-- **The walk ends at the NUL** behind a text of even length, whatever is behind that. -/
theorem hexPairs_append_nul {s : Bytes} (h : s.length % 2 = 0) (after : Bytes) :
    hexPairs (s ++ 0 :: after) = hexPairs s := by
  induction s using unspell.induct with
  | case1 a b s ih =>
    have hs : s.length % 2 = 0 := by
      rw [List.length_cons, List.length_cons] at h
      omega
    rw [List.cons_append, List.cons_append, hexPairs, hexPairs, ih hs]
  | case2 s hs =>
    rcases s with _ | ⟨a, _ | ⟨b, s⟩⟩
    · rcases after with _ | ⟨x, after⟩
      · rfl
      · simp [hexPairs]
    · simp at h
    · exact absurd rfl (hs a b s)

/-- …so it writes no more than is allocated. -/
theorem length_hexPairs_le_of_nul {s : Bytes} (h : s.length % 2 = 0) (after : Bytes) :
    (hexPairs (s ++ 0 :: after)).length ≤ s.length / 2 := by
  rw [hexPairs_append_nul h]
  exact length_hexPairs_le s

/-- **The codecs are inverse to each other**: both sides read back what the service spells, it
spells in lower case what it read of hexadecimal text, and its walk over a string of even length,
with a NUL in it or not, writes no more bytes than half the length. -/
theorem codecs_inverse :
    (∀ b, hexstringToBytes (hexstring b) = some b) ∧
    (∀ b, Verifier.decodeHex (hexstring b) = .ok (.ok b)) ∧
    (∀ s, IsText s → ∃ b, hexstringToBytes s = some b ∧ hexstring b = s.map lower) ∧
    ∀ s, s.length % 2 = 0 → ∀ after, hexPairs (s ++ 0 :: after) = hexPairs s ∧
      (hexPairs (s ++ 0 :: after)).length ≤ s.length / 2 := by
  refine ⟨hexstringToBytes_hexstring, fun b => ?_, fun s hs => ?_, fun s hs after => ?_⟩
  · obtain ⟨htext, hread⟩ := unspell_spell b
    rw [hexstring_eq_spell, Verifier.decodeHex_of_isText htext, hread]
  · exact ⟨unspell s, hexstringToBytes_of_isText hs, by rw [hexstring_eq_spell, spell_unspell hs]⟩
  · exact ⟨hexPairs_append_nul hs after, length_hexPairs_le_of_nul hs after⟩

/-- The text `1Fa0` is read, and spelled in lower case. -/
theorem codecs_inverse_text :
    ∃ b, hexstringToBytes [49, 70, 97, 48] = some b ∧ hexstring b = [49, 102, 97, 48] :=
  codecs_inverse.2.2.1 [49, 70, 97, 48] (by simp [IsText]; decide)

end Bridge
