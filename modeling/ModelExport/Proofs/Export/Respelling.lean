import ModelExport.Proofs.Export.Cut
import ModelExport.Proofs.Wire.Respelling

/-!
# Other texts of a model

A model is read from every text whose tree is a respelling of the tree that
was written: records with their fields in another order, with unknown
fields among them, without those that say nothing
(`Model.ofText_respelled`).
-/

namespace ModelExport

open Datum (Respells FieldsRespell ItemsRespell)

theorem Wire.ofJson?_respelled {α : Type} [Wire α] {j j' : Json}
    (h : Respells (.entity (entity α)) j j') {budget : Nat} {a : α}
    (ha : ofJson? budget j = some a) : ofJson? budget j' = some a := by
  obtain ⟨d, hd, ha⟩ := Option.bind_eq_some_iff.mp ha
  rw [ofJson?, h.kept d hd, Option.bind_some, ha]

namespace Model

theorem ofText_eq_ok_iff {text : String} {m : Model} :
    ofText text = .ok m ↔ Wire.ofText? text = some m := by
  unfold ofText
  cases (Wire.ofText? text : Option Model) <;> simp

/-- Where the text that a model is written as stands for it, so does every text
whose tree differs from that one in how the records in it are spelled. -/
theorem ofText_respelled (m : Model) :
    ∃ text j, m.toText = .ok text ∧ Json.parse? text = some j
      ∧ (ofText text = .ok m → ∀ j', Respells (.entity .model) j j' →
          ∀ text', Json.parse? text' = some j' → ofText text' = .ok m) := by
  obtain ⟨j, hj, -⟩ := exists_toJson?_deep m
  refine ⟨j.pretty, j, toText_of_toJson? hj, Json.parse?_pretty j, ?_⟩
  intro hread j' hrespell text' hparse
  rw [ofText_eq_ok_iff, Wire.ofText?, Json.parse?_pretty, Option.bind_some] at hread
  rw [ofText_eq_ok_iff, Wire.ofText?, hparse, Option.bind_some]
  exact Wire.ofJson?_respelled hrespell hread

/-! ## A model that says little -/

/-- A model with defaults in the program and in its one statement. -/
def small : Model where
  irVersion := currentVersion
  producerName := producer
  producerVersion := producerRelease
  domain := ""
  modelVersion := currentVersion
  program :=
    { name := "", signature := {}, body := [.branch (.variable "x") [] none], types := .ofList [] }

def smallSignature : Json := .object [("inputs", .arr []), ("outputs", .arr [])]

def smallCondition : Json := .object [("VariableRef", .ofString "x")]

/-- The statement as the writer gives it, and without the branch that is not there. -/
def smallBody : Json := .arr [.object [("If", .object
  [("condition", smallCondition), ("then_body", .arr []), ("else_body", .null)])]]

def smallBodySpelling : Json := .arr [.object [("If", .object
  [("then_body", .arr []), ("condition", smallCondition)])]]

/-- The program as the writer gives it, and with a note in the place of the defaults. -/
def smallProgram : Json := .object
  [("name", .ofString ""), ("signature", smallSignature), ("body", smallBody),
   ("functions", .arr []), ("types", .object [])]

def smallProgramSpelling : Json := .object
  [("body", smallBodySpelling), ("signature", smallSignature), ("note", .bool true),
   ("name", .ofString "")]

def smallEnvelope : List (String × Json) :=
  [("ir_version", .ofInt 1), ("producer_name", .ofString producer),
   ("producer_version", .ofString producerRelease), ("domain", .ofString ""),
   ("model_version", .ofInt 1)]

def smallTree : Json := .object (smallEnvelope ++ [("model", smallProgram)])

def smallSpelling : Json := .object ([("model", smallProgramSpelling)] ++ smallEnvelope)

theorem respells_smallBody :
    Respells (.list (.entity .expression)) smallBody smallBodySpelling :=
  .list (.cons
    (.fields rfl (.permute
      (.keep (.head _) (.refl smallCondition)
        (.keep (.tail _ (.head _)) (.refl (.arr []))
          (.omit (.tail _ (.tail _ (.head _))) rfl rfl .nil)))
      (List.reverse_perm _).symm))
    .nil)

theorem respells_smallProgram :
    Respells (.entity .program) smallProgram smallProgramSpelling :=
  .record rfl (.permute
    (.keep (.head _) (.refl (.ofString ""))
      (.insert (show "note" ∉ _ by decide)
        (.keep (.tail _ (.head _)) (.refl smallSignature)
          (.keep (.tail _ (.tail _ (.head _))) respells_smallBody
            (.omit (.tail _ (.tail _ (.tail _ (.head _)))) rfl rfl
              (.omit (.tail _ (.tail _ (.tail _ (.tail _ (.head _))))) rfl rfl .nil))))))
    (List.reverse_perm _).symm)

theorem respells_small : Respells (.entity .model) smallTree smallSpelling :=
  .record rfl (.permute
    (.keep (.head _) (.refl _)
      (.keep (.tail _ (.head _)) (.refl _)
        (.keep (.tail _ (.tail _ (.head _))) (.refl _)
          (.keep (.tail _ (.tail _ (.tail _ (.head _)))) (.refl _)
            (.keep (.tail _ (.tail _ (.tail _ (.tail _ (.head _))))) (.refl _)
              (.keep (.tail _ (.tail _ (.tail _ (.tail _ (.tail _ (.head _))))))
                respells_smallProgram .nil))))))
    (@List.perm_append_comm _ (smallEnvelope.map fun f => (some f.1, f.2)) _))

theorem toJson?_small : Wire.toJson? small = some smallTree := rfl

/-- At three depths at once. -/
theorem ofText_respelled_small : ofText smallSpelling.pretty = .ok small := by
  obtain ⟨text, j, htext, hparse, hrespelled⟩ := ofText_respelled small
  rw [toText_of_toJson? toJson?_small] at htext
  obtain rfl := Except.ok.inj htext
  rw [Json.parse?_pretty] at hparse
  obtain rfl := Option.some.inj hparse
  refine hrespelled ?_ smallSpelling respells_small _ (Json.parse?_pretty _)
  have hread := Wire.ofText?_of_toJson? toJson?_small (by decide) (by decide) (by decide)
  exact ofText_eq_ok_iff.mpr (hread _ (by simp))

end Model

end ModelExport
