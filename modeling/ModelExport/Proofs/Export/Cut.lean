import ModelExport.Proofs.Export.RoundTrip
import ModelExport.Proofs.Json.Cut
import ModelExport.Proofs.Wire.Cut

/-!
# Models that are cut off

No part of a stored model from the front is a stored model, of the bytes
as little as of the text (`Model.cut_refused`).
-/

namespace ModelExport

namespace Model

/-- Every model has a tree, and the tree is an object. -/
theorem exists_toJson?_deep (m : Model) : ∃ j, Wire.toJson? m = some j ∧ 0 < j.depth := by
  obtain ⟨j, hj⟩ := (LawfulWire.fits m).exists_toJson? rfl
  refine ⟨j, hj, ?_⟩
  change Datum.toJson? (.entity .model) m.toDatum = some j at hj
  rw [toDatum, Datum.toJson?] at hj
  obtain ⟨js, -, rfl⟩ := Option.map_eq_some_iff.mp hj
  rw [Json.depth]
  exact Nat.succ_pos _

/-- Where no datum is read, no model is. -/
theorem decode_of_error {bytes : List UInt8} {e : WireError}
    (h : Datum.decode .model bytes = .error e) : decode bytes = .error (.malformedBytes e) := by
  have hwire : (Wire.decode bytes : Except WireError (Model × _)) = .error e := by
    change (Datum.decode .model bytes >>= _) = _
    rw [h]
    rfl
  rw [decode, hwire]

/-- A stored model that is cut off is refused, wherever the cut is: bytes
because they end, a text because it is none. -/
theorem cut_refused (m : Model) :
    ((∀ d ∈ m.toDatum.subdata, d.Countable) → ∀ cut, cut <+: m.encode → cut ≠ m.encode →
        decode cut = .error (.malformedBytes .endOfInput))
    ∧ ∃ text, m.toText = .ok text ∧ ∀ cut : String, cut.toList <+: text.toList → cut ≠ text →
        ofText cut = .error .malformedText := by
  refine ⟨fun hcountable cut hcut hne => ?bytes, ?text⟩
  case bytes =>
    obtain ⟨more, hmore⟩ := hcut
    have hne' : more ≠ [] := by
      rintro rfl
      exact hne (by rw [← hmore, List.append_nil])
    have hwhole : Datum.decode .model m.encode = .ok (m.toDatum, []) := by
      rw [← List.append_nil m.encode]
      exact Datum.decode_encode (LawfulWire.fits m) hcountable []
    rw [← hmore] at hwhole
    exact decode_of_error (Datum.decode_cut hwhole hne')
  case text =>
    obtain ⟨j, hj, hdepth⟩ := exists_toJson?_deep m
    refine ⟨j.pretty, toText_of_toJson? hj, fun cut hcut hne => ?_⟩
    rw [ofText, Wire.ofText?, Json.parse?_cut hdepth hcut hne, Option.bind_none]

/-- The last byte and the last bracket are needed. -/
theorem cut_refused_sample :
    decode (sample (.comment "")).encode.dropLast = .error (.malformedBytes .endOfInput)
      ∧ ∃ text, (sample (.comment "")).toText = .ok text
          ∧ ofText (String.ofList text.toList.dropLast) = .error .malformedText := by
  obtain ⟨hbytes, text, htext, hcut⟩ := cut_refused (sample (.comment ""))
  refine ⟨hbytes (by decide +kernel) _ (List.dropLast_prefix _) (by decide +kernel), text, htext,
    hcut _ (by rw [String.toList_ofList]; exact List.dropLast_prefix _) fun heq => ?_⟩
  -- Only the empty text has no last character, and it is the text of no tree.
  obtain ⟨j, hj, -⟩ := exists_toJson?_deep (sample (.comment ""))
  have hparse := Json.parse?_pretty j
  rw [toText_of_toJson? hj] at htext
  obtain rfl := Except.ok.inj htext
  have hchars := congrArg (fun t => t.toList.length) heq
  rw [String.toList_ofList, List.length_dropLast] at hchars
  have hnil : j.pretty.toList = [] := List.length_eq_zero_iff.mp (by omega)
  rw [Json.parse?, hnil] at hparse
  cases hparse

end Model

end ModelExport
