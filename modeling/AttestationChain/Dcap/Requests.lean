import AttestationChain.Dcap.EntryNetwork
import AttestationChain.Dcap.Json.RoundTrip

/-!
# Dcap/Requests — a request, and the evidence it carries

A request is written as an object of three strings.  The handler reads the signature and the quote
back, and the account as `ToString` yields it: escaped.
-/

namespace Dcap

open JSON

/-- A request, as it is written. -/
def request (sig quote account : Bytes) : Bytes :=
  written [(ascii "sig", hexstring sig), (ascii "quote", hexstring quote),
    (ascii "account", account)]

variable {Double : Type}

/-- The document of a request. -/
def requestJson (sig quote account : Bytes) : JSON Double :=
  .object [(ascii "account", .string account), (ascii "quote", .string (hexstring quote)),
    (ascii "sig", .string (hexstring sig))]

theorem untagged_hexstring (src : Bytes) : Untagged (hexstring src) := by
  have hdollar : (36 : UInt8) ∉ hexstring src := fun h =>
    (show (36 : UInt8) ∉ hextable by decide) (mem_hexstring h)
  exact ⟨fun h => hdollar (h.subset (by decide)), fun h => hdollar (h.subset (by decide))⟩

theorem load_request (doubles : Doubles Double) (sig quote : Bytes) {account : Bytes}
    (h : Untagged account) :
    JSON.load doubles (request sig quote account) =
      .ok (requestJson sig quote account, .success) := by
  have hkeys : ∀ k ∈ [ascii "sig", ascii "quote", ascii "account"],
      k.length < uint32Size ∧ Untagged k := by decide
  refine load_written doubles (List.cons_ne_nil _ _) fun kv hkv => ?_
  have hkey := hkeys kv.1 (List.mem_map_of_mem hkv)
  refine ⟨hkey.1, hkey.2, ?_⟩
  obtain rfl | rfl | rfl : kv = _ ∨ kv = _ ∨ kv = _ := by simpa using hkv
  · exact untagged_hexstring sig
  · exact untagged_hexstring quote
  · exact h

/-- The text of a hexadecimal string is the string. -/
theorem toString_hexstring {src : Bytes} (h : 2 * src.length < uint32Size) :
    (JSON.string (hexstring src) : JSON Double).toString = .ok (hexstring src) := by
  change jsonEscape (hexstring src) = _
  rw [jsonEscape, if_pos (by rwa [length_hexstring]), escaped_plain (plain_hexstring src)]

/-- **The evidence of a request.** -/
theorem readEvidence_requestJson {sig quote account : Bytes} (hsig : 2 * sig.length < uint32Size)
    (hquote : 2 * quote.length < uint32Size) (haccount : account.length < uint32Size)
    (hsz : quote.length + (escaped account).length < uint32Size) :
    readEvidence (requestJson sig quote account : JSON Double) =
      .ok (some ⟨sig, quote, quote.length, escaped account, hsz⟩) := by
  have htext : (JSON.string account : JSON Double).toString = .ok (escaped account) :=
    if_pos haccount
  have hlen : (hexstring quote).length / 2 % uint32Size = quote.length := by
    rw [length_hexstring, Nat.mul_div_cancel_left _ (by decide), Nat.mod_eq_of_lt (by omega)]
  change ((JSON.string (hexstring sig) : JSON Double).toString >>= _) = _
  rw [toString_hexstring hsig]
  dsimp only [bind, Except.bind]
  rw [hexstringToBytes_hexstring]
  change ((JSON.string (hexstring quote) : JSON Double).toString >>= _) = _
  rw [toString_hexstring hquote]
  change ((JSON.string account : JSON Double).toString >>= _) = _
  rw [htext]
  dsimp only [bind, Except.bind]
  rw [hexstringToBytes_hexstring]
  have hread : ∀ n, n = quote.length → (if h : n + (escaped account).length < uint32Size then
      (.ok (some ⟨sig, quote, n, escaped account, h⟩) : Except Fault (Option Evidence))
      else .error .outOfBounds) = .ok (some ⟨sig, quote, quote.length, escaped account, hsz⟩) := by
    rintro _ rfl
    exact dif_pos hsz
  exact hread _ hlen

end Dcap
