import ModelExport.Json.Number
import ModelExport.Proofs.Json.Token

/-!
# Reading back trees

Every tree is read back from its text, in both styles (`parse?_compact`,
`parse?_pretty`). The induction is on the tree. It says for every place
where a value may start that the reader goes over the text of the value
to where it closes it in the containers that are open, and goes on with
what follows. Blanks between the parts change nothing, and whatever
follows a part ends a number that stands there.
-/

namespace ModelExport

namespace Json

/-- Between the parts there are blanks and colons only. -/
structure Style.Lawful (style : Style) : Prop where
  gap : ∀ level, ∀ c ∈ style.gap level, Scan.isBlank c = true
  colon : ∃ blanks, style.colon = ':' :: blanks ∧ ∀ c ∈ blanks, Scan.isBlank c = true

namespace Style

theorem lawful_compact : compact.Lawful where
  gap _ _ h := nomatch h
  colon := ⟨[], rfl, fun _ h => nomatch h⟩

theorem lawful_pretty : pretty.Lawful where
  gap level c h := by
    rcases List.mem_cons.mp h with rfl | h
    · rfl
    · rw [List.eq_of_mem_replicate h]
      rfl
  colon := ⟨[' '], rfl, fun c h => by
    rw [List.mem_singleton.mp h]
    rfl⟩

end Style

/-! ## Blanks -/

theorem ends_blanks {blanks cs : List Char} (h : ∀ c ∈ blanks, Scan.isBlank c = true)
    (hcs : Ends cs) : Ends (blanks ++ cs) := by
  cases blanks with
  | nil => exact hcs
  | cons c blanks =>
      have hblank := h c (List.mem_cons_self ..)
      simp only [Scan.isBlank, Bool.or_eq_true, decide_eq_true_eq] at hblank
      rcases hblank with ((rfl | rfl) | rfl) | rfl <;>
        exact ends_cons (by decide) (by decide) (by decide) (by decide) _

theorem ends_comma (cs : List Char) : Ends (',' :: cs) :=
  ends_cons (by decide) (by decide) (by decide) (by decide) cs

theorem ends_bracket (cs : List Char) : Ends (']' :: cs) :=
  ends_cons (by decide) (by decide) (by decide) (by decide) cs

theorem ends_brace (cs : List Char) : Ends ('\x7d' :: cs) :=
  ends_cons (by decide) (by decide) (by decide) (by decide) cs

namespace Scan

variable {frames : List Frame} {style : Style} {mayClose : Bool}

theorem readFrom_blanks {phase : Phase}
    (hphase : ∀ c, step ⟨phase, frames⟩ c = stepBetween phase frames c) {blanks : List Char}
    (h : ∀ c ∈ blanks, isBlank c = true) (cs : List Char) :
    readFrom ⟨phase, frames⟩ (blanks ++ cs) = readFrom ⟨phase, frames⟩ cs := by
  induction blanks with
  | nil => rfl
  | cons c blanks ih =>
      have hstep : step ⟨phase, frames⟩ c = some ⟨phase, frames⟩ := by
        simp [hphase, stepBetween, h c (List.mem_cons_self ..)]
      rw [List.cons_append, readFrom_of_step hstep,
        ih fun d hd => h d (List.mem_cons_of_mem _ hd)]

/-- Where a value may start, a character that starts one. -/
theorem readFrom_open {s : Scan} {c : Char} (h : open? frames c = some s)
    (hblank : isBlank c = false) (hbracket : c ≠ ']') (cs : List Char) :
    readFrom ⟨.value mayClose, frames⟩ (c :: cs) = s.readFrom cs := by
  apply readFrom_of_step
  simp [step, stepBetween, hblank, hbracket, h]

/-- The bracket that ends the innermost container. -/
theorem readFrom_closeFrame {c : Char} (hblank : isBlank c = false) (hcomma : c ≠ ',')
    (cs : List Char) :
    readFrom ⟨.next, frames⟩ (c :: cs) = (closeFrame frames c).bind (·.readFrom cs) := by
  rw [readFrom_cons]
  simp [step, stepBetween, hblank, hcomma]

theorem readFrom_colon (hstyle : style.Lawful) (cs : List Char) :
    readFrom ⟨.colon, frames⟩ (style.colon ++ cs) = readFrom ⟨.value false, frames⟩ cs := by
  obtain ⟨blanks, hcolon, hblanks⟩ := hstyle.colon
  rw [hcolon, List.cons_append, readFrom_of_step rfl, readFrom_blanks (fun _ => rfl) hblanks]

/-- The key of a field up to where its value starts. -/
theorem readFrom_key (hstyle : style.Lawful) (fields : List (Text × Json)) (key : Text)
    (cs : List Char) :
    readFrom ⟨.key mayClose, .object fields :: frames⟩ (textChars key ++ (style.colon ++ cs))
      = readFrom ⟨.value false, .member fields key :: frames⟩ cs := by
  rw [readFrom_textChars rfl]
  exact readFrom_colon hstyle cs

/-! ## The induction -/

theorem ends_writeItems (level : Nat) (rest : List Json) {after : List Char} (h : Ends after) :
    Ends (writeItems style level rest after) := by
  cases rest with
  | nil => exact h
  | cons j rest => exact ends_comma _

theorem ends_writeFields (level : Nat) (rest : List (Text × Json)) {after : List Char}
    (h : Ends after) : Ends (writeFields style level rest after) := by
  cases rest with
  | nil => exact h
  | cons f rest => exact ends_comma _

mutual

theorem readFrom_write (hstyle : style.Lawful) : ∀ (j : Json) (level : Nat) {mayClose : Bool}
    {frames : List Frame} {after : List Char}, Ends after →
      readFrom ⟨.value mayClose, frames⟩ (write style level j after)
        = (close frames j).bind (·.readFrom after)
  | .null, _, _, frames, after, _ => by
      rw [write, readFrom_open rfl rfl (by decide)]
      exact readFrom_cons ⟨.word ['l'] .null, frames⟩ 'l' after
  | .bool true, _, _, frames, after, _ => by
      rw [write, readFrom_open rfl rfl (by decide)]
      exact readFrom_cons ⟨.word ['e'] (.bool true), frames⟩ 'e' after
  | .bool false, _, _, frames, after, _ => by
      rw [write, readFrom_open rfl rfl (by decide)]
      exact readFrom_cons ⟨.word ['e'] (.bool false), frames⟩ 'e' after
  | .num n, _, _, _, _, h => readFrom_numeralChars n h
  | .str s, _, mayClose, frames, after, _ => by
      have hquote : step ⟨.value mayClose, frames⟩ '\x22' = some ⟨.text false {}, frames⟩ := by
        cases mayClose <;> rfl
      exact readFrom_textChars hquote s after
  | .arr [], _, _, frames, after, _ => by
      rw [write, readFrom_open rfl rfl (by decide)]
      exact readFrom_cons ⟨.value true, .array [] :: frames⟩ ']' after
  | .arr (j :: rest), level, _, frames, after, _ => by
      have hends : Ends (style.gap level ++ ']' :: after) :=
        ends_blanks (hstyle.gap level) (ends_bracket after)
      rw [write, readFrom_open rfl rfl (by decide), readFrom_blanks (fun _ => rfl) (hstyle.gap _),
        readFrom_write hstyle j _ (ends_writeItems _ rest hends), close, Option.bind_some,
        readFrom_writeItems hstyle rest _ [j] hends, readFrom_blanks (fun _ => rfl) (hstyle.gap _),
        readFrom_closeFrame rfl (by decide), closeFrame, if_pos rfl, List.reverse_append,
        List.reverse_reverse]
      rfl
  | .obj [], _, _, frames, after, _ => by
      rw [write, readFrom_open rfl rfl (by decide)]
      exact readFrom_cons ⟨.key true, .object [] :: frames⟩ '\x7d' after
  | .obj ((key, j) :: rest), level, _, frames, after, _ => by
      have hends : Ends (style.gap level ++ '\x7d' :: after) :=
        ends_blanks (hstyle.gap level) (ends_brace after)
      rw [write, readFrom_open rfl rfl (by decide), readFrom_blanks (fun _ => rfl) (hstyle.gap _),
        readFrom_key hstyle, readFrom_write hstyle j _ (ends_writeFields _ rest hends), close,
        Option.bind_some, readFrom_writeFields hstyle rest _ [(key, j)] hends,
        readFrom_blanks (fun _ => rfl) (hstyle.gap _), readFrom_closeFrame rfl (by decide),
        closeFrame, if_pos rfl, List.reverse_append, List.reverse_reverse]
      rfl

theorem readFrom_writeItems (hstyle : style.Lawful) : ∀ (rest : List Json) (level : Nat)
    (items : List Json) {frames : List Frame} {after : List Char}, Ends after →
      readFrom ⟨.next, .array items :: frames⟩ (writeItems style level rest after)
        = readFrom ⟨.next, .array (rest.reverse ++ items) :: frames⟩ after
  | [], level, items, frames, after, _ => rfl
  | j :: rest, level, items, frames, after, h => by
      rw [writeItems, @readFrom_of_step _ ⟨.value false, .array items :: frames⟩ _ rfl,
        readFrom_blanks (fun _ => rfl) (hstyle.gap _),
        readFrom_write hstyle j _ (ends_writeItems _ rest h), close, Option.bind_some,
        readFrom_writeItems hstyle rest _ _ h, List.reverse_cons, List.append_assoc,
        List.singleton_append]

theorem readFrom_writeFields (hstyle : style.Lawful) : ∀ (rest : List (Text × Json)) (level : Nat)
    (fields : List (Text × Json)) {frames : List Frame} {after : List Char}, Ends after →
      readFrom ⟨.next, .object fields :: frames⟩ (writeFields style level rest after)
        = readFrom ⟨.next, .object (rest.reverse ++ fields) :: frames⟩ after
  | [], level, fields, frames, after, _ => rfl
  | (key, j) :: rest, level, fields, frames, after, h => by
      rw [writeFields, @readFrom_of_step _ ⟨.key false, .object fields :: frames⟩ _ rfl,
        readFrom_blanks (fun _ => rfl) (hstyle.gap _), readFrom_key hstyle,
        readFrom_write hstyle j _ (ends_writeFields _ rest h), close, Option.bind_some,
        readFrom_writeFields hstyle rest _ _ h, List.reverse_cons, List.append_assoc,
        List.singleton_append]

end

end Scan

theorem parse?_write {style : Style} (hstyle : style.Lawful) (j : Json) :
    parse? (String.ofList (j.write style 0 [])) = some j := by
  rw [parse?, String.toList_ofList]
  exact Scan.readFrom_write hstyle j 0 ends_nil

theorem parse?_compact (j : Json) : parse? j.compact = some j := parse?_write Style.lawful_compact j

theorem parse?_pretty (j : Json) : parse? j.pretty = some j := parse?_write Style.lawful_pretty j

end Json

namespace Single

/-- The number that is read from the text that the number is written as. -/
def reread (x : Single) : Option Single := (Json.parse? x.toJson.compact).bind ofJson?

theorem reread_eq (x : Single) : x.reread = ofJson? x.toJson := by
  rw [reread, Json.parse?_compact, Option.bind_some]

end Single

end ModelExport
