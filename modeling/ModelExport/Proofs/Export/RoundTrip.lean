import ModelExport.Export.Save
import ModelExport.Proofs.Wire.ReadBack

/-!
# Stored models come back

Models are stored lawfully, and so both of their stored forms lose
nothing: the bytes whatever follows them (`Model.decode_encode_append`),
the text as long as it nests no deeper than the reader goes
(`Model.ofText_toText_iff`).
-/

namespace ModelExport

/-- Functions without parameters, so many around the expression. -/
def Expr.nested : Nat → Expr → Expr
  | 0, e => e
  | count + 1, e => .lambda [] [nested count e]

namespace Model

/-- A model with the expression deep inside, with zeros of both signs, a
value that is no number, and types out of alphabetical order. -/
def sample (e : Expr) : Model where
  irVersion := currentVersion
  producerName := producer
  producerVersion := producerRelease
  domain := "\x22\\\n\x01ünïcode"
  modelVersion := Int64.minValue
  program :=
    { name := ""
      signature := { inputs := [{ name := "x", type := .scalar .float }] }
      body :=
        [Expr.nested 41 e,
         .literal (.tensor ⟨[3, UInt64.ofNat (2 ^ 64 - 1)],
           .floats [.zero, .negate .zero, .nan]⟩),
         .branch (.variable "x") [] none]
      types := .ofList [("x", .scalar .float), ("a", .tensor .int64 [.fixed 2, .unbound])] }

/-- The bytes of a model stand for it, whatever follows them. -/
theorem decode_encode_append (m : Model) (h : ∀ d ∈ m.toDatum.subdata, d.Countable)
    (rest : List UInt8) : decode (m.encode ++ rest) = .ok m := by
  rw [decode, encode, Wire.decode_encode h rest]

theorem decode_encode_append_sample :
    (∀ d ∈ (sample (.literal (.float ⟨0xff800001⟩))).toDatum.subdata, d.Countable)
      ∧ decode ((sample (.literal (.float ⟨0xff800001⟩))).encode ++ [0, 1, 2])
        = .ok (sample (.literal (.float ⟨0xff800001⟩))) :=
  ⟨by decide +kernel, decode_encode_append _ (by decide +kernel) _⟩

theorem toText_of_toJson? {m : Model} {j : Json} (h : Wire.toJson? m = some j) :
    m.toText = .ok j.pretty := by
  unfold toText
  rw [h]

/-- The depth of the tree that a text was made of is found without the text. -/
theorem depth_eq {m : Model} {text : String} {j : Json} {n : Nat} (htext : m.toText = .ok text)
    (hparse : Json.parse? text = some j) (hn : (Wire.toJson? m).map Json.depth = some n) :
    j.depth = n := by
  obtain ⟨tree, htree, hdepth⟩ := Option.map_eq_some_iff.mp hn
  obtain rfl : tree.pretty = text := by
    rw [toText_of_toJson? htree] at htext
    exact Except.ok.inj htext
  rw [Json.parse?_pretty] at hparse
  rw [← Option.some.inj hparse, hdepth]

/-- The text of a model stands for it exactly when it nests at most 127
arrays and objects. A deeper text is refused, the bytes are not. -/
theorem ofText_toText_iff (m : Model) (h : ∀ x ∈ m.toDatum.singles, x.reread = some x) :
    ∃ text j, m.toText = .ok text ∧ Json.parse? text = some j
      ∧ (ofText text = .ok m ↔ j.depth ≤ 127)
      ∧ (127 < j.depth → ofText text = .error .malformedText
          ∧ ((∀ d ∈ m.toDatum.subdata, d.Countable) → decode m.encode = .ok m)) := by
  obtain ⟨j, hj, hread⟩ := Wire.exists_toJson m (by decide) h
  have htext : ofText j.pretty = if j.depth ≤ 127 then .ok m else .error .malformedText := by
    rw [ofText, Wire.ofText?, Json.parse?_pretty, Option.bind_some, hread, Datum.levels]
    by_cases hdepth : j.depth ≤ 127 <;> simp [hdepth]
  refine ⟨j.pretty, j, toText_of_toJson? hj, Json.parse?_pretty j, ?_, ?_⟩
  · rw [htext]
    by_cases hdepth : j.depth ≤ 127 <;> simp [hdepth]
  · intro hdeep
    refine ⟨by rw [htext, if_neg (by omega)], fun hc => ?_⟩
    have hbytes := Wire.decode_encode (show ∀ d ∈ (Wire.toDatum m).subdata, d.Countable from hc) []
    rw [List.append_nil] at hbytes
    rw [decode, encode, hbytes]

/-- At 127 levels a text is read, at 128 it is refused. -/
theorem ofText_toText_iff_sample :
    (∃ text, (sample (.comment "")).toText = .ok text
        ∧ ofText text = .ok (sample (.comment "")))
      ∧ ∃ text, (sample (.literal (.float .infinity))).toText = .ok text
        ∧ ofText text = .error .malformedText := by
  refine ⟨?_, ?_⟩
  · obtain ⟨text, j, htext, hparse, hiff, -⟩ :=
      ofText_toText_iff (sample (.comment "")) (by decide +kernel)
    have hlevels := depth_eq htext hparse (show _ = some 127 by decide +kernel)
    exact ⟨text, htext, hiff.mpr (by omega)⟩
  · obtain ⟨text, j, htext, hparse, -, hdeep⟩ :=
      ofText_toText_iff (sample (.literal (.float .infinity))) (by decide +kernel)
    have hlevels := depth_eq htext hparse (show _ = some 128 by decide +kernel)
    exact ⟨text, htext, (hdeep (by omega)).1⟩

end Model

end ModelExport
