import Mathlib.Data.List.Forall2
import SourceRepair.Text.Entity

/-!
# Entities and literals

Decoding reads a text once from left to right and never looks at what it has put out, so it undoes one encoding and no
more. In a string literal the decoded text is closed, that is, no backslash at its end is without a character to
escape, and the quotes that decoding brings to light are escaped: the result is one literal again.
-/

namespace SourceRepair.Text

variable {quote c : Char} {w cs t e raw body : List Char} {escaped : Bool}

/-! ### Decoding step by step -/

/-- The entities with the characters that they stand for. -/
def entities : List (List Char × Char) :=
  [(['&', 'q', 'u', 'o', 't', ';'], '"'), (['&', '#', 'x', '2', '7', ';'], '\x27'),
    (['&', '#', '3', '9', ';'], '\x27'), (['&', 'a', 'm', 'p', ';'], '&')]

theorem entity_cases (named : (w, c) ∈ entities) :
    (w = ['&', 'q', 'u', 'o', 't', ';'] ∧ c = '"') ∨ (w = ['&', '#', 'x', '2', '7', ';'] ∧ c = '\x27') ∨
      (w = ['&', '#', '3', '9', ';'] ∧ c = '\x27') ∨ (w = ['&', 'a', 'm', 'p', ';'] ∧ c = '&') := by
  simpa [entities] using named

theorem decodeEntities_entity (named : (w, c) ∈ entities) (cs : List Char) :
    decodeEntities (w ++ cs) = c :: decodeEntities cs := by
  rcases entity_cases named with ⟨rfl, rfl⟩ | ⟨rfl, rfl⟩ | ⟨rfl, rfl⟩ | ⟨rfl, rfl⟩ <;> rfl

theorem hasEntities_entity (named : (w, c) ∈ entities) (cs : List Char) : hasEntities (w ++ cs) := by
  rcases entity_cases named with ⟨rfl, rfl⟩ | ⟨rfl, rfl⟩ | ⟨rfl, rfl⟩ | ⟨rfl, rfl⟩ <;> rfl

theorem decodeEntities_plain (h : c ≠ '&') (cs : List Char) :
    decodeEntities (c :: cs) = c :: decodeEntities cs := by
  conv_lhs => unfold decodeEntities
  split <;> simp_all

/-- What holds of the empty text and goes on over each entity, and over each character that starts none, holds of
every text. -/
theorem entity_induction {motive : List Char → Prop} (nil : motive [])
    (entity : ∀ w c cs, (w, c) ∈ entities → motive cs → motive (w ++ cs))
    (plain : ∀ c cs, decodeEntities (c :: cs) = c :: decodeEntities cs → hasEntities (c :: cs) = hasEntities cs →
      motive cs → motive (c :: cs)) (cs : List Char) : motive cs := by
  fun_induction decodeEntities cs with
  | case1 cs ih => exact entity ['&', 'q', 'u', 'o', 't', ';'] '"' cs (by decide) ih
  | case2 cs ih => exact entity ['&', '#', 'x', '2', '7', ';'] '\x27' cs (by decide) ih
  | case3 cs ih => exact entity ['&', '#', '3', '9', ';'] '\x27' cs (by decide) ih
  | case4 cs ih => exact entity ['&', 'a', 'm', 'p', ';'] '&' cs (by decide) ih
  | case5 c cs quot hex dec amp ih =>
    refine plain c cs ?_ ?_ ih
    · conv_lhs => unfold decodeEntities
      split <;> simp_all
    · conv_lhs => unfold hasEntities
      split <;> simp_all
  | case6 => exact nil

theorem hasEntities_cons (h : hasEntities cs) (c : Char) : hasEntities (c :: cs) := by
  unfold hasEntities
  split <;> simp_all

/-- A text has entities exactly if one of the four stands somewhere in it. -/
theorem hasEntities_iff : hasEntities cs ↔ ∃ w c, (w, c) ∈ entities ∧ w <:+: cs := by
  constructor
  · intro h
    induction cs using entity_induction with
    | nil => cases h
    | entity w c cs named _ => exact ⟨w, c, named, [], cs, rfl⟩
    | plain c cs _ same ih =>
      obtain ⟨w, d, named, inside⟩ := ih (same ▸ h)
      exact ⟨w, d, named, List.infix_cons inside⟩
  · rintro ⟨w, c, named, before, after, rfl⟩
    rw [List.append_assoc]
    induction before with
    | nil => exact hasEntities_entity named after
    | cons d before ih => exact hasEntities_cons ih d

theorem length_entity (named : (w, c) ∈ entities) : 1 < w.length := by
  rcases entity_cases named with ⟨rfl, rfl⟩ | ⟨rfl, rfl⟩ | ⟨rfl, rfl⟩ | ⟨rfl, rfl⟩ <;> decide

theorem length_decodeEntities_le (cs : List Char) : (decodeEntities cs).length ≤ cs.length := by
  induction cs using entity_induction with
  | nil => simp [decodeEntities]
  | entity w c cs named ih =>
    have := length_entity named
    simp only [decodeEntities_entity named, List.length_cons, List.length_append]
    omega
  | plain c cs step _ ih => simpa [step] using ih

theorem length_decodeEntities_lt (h : hasEntities cs) : (decodeEntities cs).length < cs.length := by
  induction cs using entity_induction with
  | nil => cases h
  | entity w c cs named _ =>
    have := length_entity named
    have := length_decodeEntities_le cs
    simp only [decodeEntities_entity named, List.length_cons, List.length_append]
    omega
  | plain c cs step same ih => simpa [step] using ih (same ▸ h)

theorem decodeEntities_eq_self (h : hasEntities cs = false) : decodeEntities cs = cs := by
  induction cs using entity_induction with
  | nil => rfl
  | entity w c cs named _ => simp [hasEntities_entity named] at h
  | plain c cs step same ih => rw [step, ih (same ▸ h)]

/-! ### Encoding -/

/-- How encoding may write a character: by one of its entities, or as it is when it has none. -/
def Written (c : Char) (w : List Char) : Prop :=
  (w, c) ∈ entities ∨ ((∀ v, (v, c) ∉ entities) ∧ w = [c])

/-- The second text is the first with each character that has entities written by one of them. -/
def Encoded (t e : List Char) : Prop := ∃ ws, List.Forall₂ Written t ws ∧ e = ws.flatten

theorem decodeEntities_written (written : Written c w) (cs : List Char) :
    decodeEntities (w ++ cs) = c :: decodeEntities cs := by
  rcases written with named | ⟨unnamed, rfl⟩
  · exact decodeEntities_entity named cs
  · -- An ampersand has an entity of its own, so a character that has none does not start one.
    refine decodeEntities_plain ?_ cs
    rintro rfl
    exact unnamed ['&', 'a', 'm', 'p', ';'] (by decide)

theorem decodeEntities_encoded (encoded : Encoded t e) : decodeEntities e = t := by
  obtain ⟨ws, written, rfl⟩ := encoded
  induction written with
  | nil => rfl
  | cons first _ ih => rw [List.flatten_cons, decodeEntities_written first, ih]

/-- Decoding undoes an encoding exactly once, and changes a text exactly if it has entities. -/
theorem decoded_once : (∀ t e, Encoded t e → decodeEntities e = t) ∧
    ∀ u, hasEntities u ↔ decodeEntities u ≠ u := by
  refine ⟨fun t e encoded => decodeEntities_encoded encoded, fun u => ⟨fun h same => ?_, fun changed => ?_⟩⟩
  · have := length_decodeEntities_lt h
    rw [same] at this
    omega
  · by_contra h
    exact changed (decodeEntities_eq_self (by simpa using h))

/-- A text that itself holds what looks like an entity. -/
theorem decoded_once_nested : Encoded ['&', '#', '3', '9', ';', '\x27'] "&amp;#39;&#x27;".toList ∧
    decodeEntities "&amp;#39;&#x27;".toList = ['&', '#', '3', '9', ';', '\x27'] := by
  have plain {c : Char} (h : c ∉ entities.map Prod.snd) : Written c [c] :=
    .inr ⟨fun v named => h (List.mem_map_of_mem named), rfl⟩
  have encoded : Encoded ['&', '#', '3', '9', ';', '\x27'] "&amp;#39;&#x27;".toList := by
    refine ⟨["&amp;".toList, ['#'], ['3'], ['9'], [';'], "&#x27;".toList], ?_, by decide⟩
    exact .cons (.inl (by decide)) (.cons (plain (by decide)) (.cons (plain (by decide)) (.cons (plain (by decide))
      (.cons (plain (by decide)) (.cons (.inl (by decide)) .nil)))))
  exact ⟨encoded, decoded_once.1 _ _ encoded⟩

/-! ### Literals -/

/-- What may stand between the quotes of a literal: the quote only behind a backslash, and a backslash only before a
character that it escapes. -/
inductive Body (quote : Char) : List Char → Prop
  | nil : Body quote []
  | plain {c : Char} {cs : List Char} (noQuote : c ≠ quote) (noSlash : c ≠ '\\') (rest : Body quote cs) :
    Body quote (c :: cs)
  | escape {c : Char} {cs : List Char} (rest : Body quote cs) : Body quote ('\\' :: c :: cs)

theorem Body.append (word : ∀ c ∈ w, c ≠ quote ∧ c ≠ '\\') (rest : Body quote cs) : Body quote (w ++ cs) := by
  induction w with
  | nil => exact rest
  | cons c w ih =>
    obtain ⟨⟨noQuote, noSlash⟩, word⟩ := List.forall_mem_cons.mp word
    exact .plain noQuote noSlash (ih word)

/-- A string literal in single or double quotes, with what stands between them. -/
def IsLiteral (quote : Char) (body raw : List Char) : Prop :=
  (quote = '\x27' ∨ quote = '"') ∧ Body quote body ∧ raw = quote :: body ++ [quote]

/-- No backslash at the end is without a character to escape. The flag says that the text follows an escaping
backslash. -/
def closed : Bool → List Char → Bool
  | escaped, [] => !escaped
  | escaped, c :: cs => closed (c == '\\' && !escaped) cs

theorem Body.closed (body : Body quote cs) : closed false cs := by
  induction body with
  | nil => rfl
  | @plain c cs _ noSlash _ ih =>
    have other : (c == '\\') = false := by simpa using noSlash
    simpa [Text.closed, other] using ih
  | escape _ ih => simpa [Text.closed] using ih

/-- An entity and its character both end an escape that is open before them. -/
theorem closed_entity (named : (w, c) ∈ entities) : closed escaped (w ++ cs) = closed escaped (c :: cs) := by
  rcases entity_cases named with ⟨rfl, rfl⟩ | ⟨rfl, rfl⟩ | ⟨rfl, rfl⟩ | ⟨rfl, rfl⟩ <;> simp [closed]

theorem closed_decodeEntities : closed escaped (decodeEntities cs) = closed escaped cs := by
  induction cs using entity_induction generalizing escaped with
  | nil => rfl
  | entity w c cs named ih => rw [decodeEntities_entity named, closed_entity named, closed, closed, ih]
  | plain c cs step _ ih => rw [step, closed, closed, ih]

/-- Escaping the quotes of a closed text makes it the body of a literal, also behind a backslash. -/
theorem body_escapeQuotes (noSlash : quote ≠ '\\') (h : closed escaped cs) :
    Body quote (if escaped then '\\' :: escapeQuotes quote true cs else escapeQuotes quote false cs) := by
  induction cs generalizing escaped with
  | nil =>
    cases escaped with
    | true => cases h
    | false => exact .nil
  | cons c cs ih =>
    have rest := ih h
    cases escaped with
    | true =>
      have tail : Body quote (escapeQuotes quote false cs) := by simpa using rest
      simpa [escapeQuotes] using Body.escape tail
    | false =>
      by_cases slash : c = '\\'
      · subst slash
        simpa [escapeQuotes, noSlash.symm] using rest
      · have other : (c == '\\') = false := by simpa using slash
        have tail : Body quote (escapeQuotes quote false cs) := by simpa [other] using rest
        by_cases bare : c = quote
        · subst bare
          simpa [escapeQuotes, other] using Body.escape tail
        · simpa [escapeQuotes, other, bare] using Body.plain bare slash tail

/-- Nothing but backslashes is put in. -/
theorem filter_escapeQuotes : (escapeQuotes quote escaped cs).filter (· != '\\') = cs.filter (· != '\\') := by
  induction cs generalizing escaped with
  | nil => rfl
  | cons c cs ih =>
    rw [escapeQuotes]
    split <;> simp [List.filter_cons, ih]

theorem quoteOf_cons (quotes : quote = '\x27' ∨ quote = '"') (cs : List Char) : quoteOf (quote :: cs) = quote := by
  rcases quotes with rfl | rfl <;> rfl

/-- Decoding a literal gives a literal in the same quotes with the decoded text, backslashes aside, and gives nothing
exactly if none of the entities stands in the literal. -/
theorem literal_decoded (literal : IsLiteral quote body raw) :
    (∀ s, decodeLiteral? raw = some s → ∃ decoded, IsLiteral quote decoded s ∧
      decoded.filter (· != '\\') = (decodeEntities body).filter (· != '\\')) ∧
    (decodeLiteral? raw = none ↔ ∀ w c, (w, c) ∈ entities → ¬ w <:+: raw) := by
  obtain ⟨quotes, inside, rfl⟩ := literal
  constructor
  · intro s decoded
    rw [decodeLiteral?, List.cons_append, quoteOf_cons quotes, ← List.cons_append] at decoded
    split at decoded
    · cases decoded
    · obtain rfl := Option.some.inj decoded
      have whole : ((quote :: body ++ [quote]).drop 1).dropLast = body := by simp
      have noSlash : quote ≠ '\\' := by rcases quotes with rfl | rfl <;> decide
      have settled : closed false (decodeEntities body) := by rw [closed_decodeEntities, inside.closed]
      rw [whole]
      exact ⟨_, ⟨quotes, body_escapeQuotes noSlash settled, rfl⟩, filter_escapeQuotes⟩
  · have none_iff : decodeLiteral? (quote :: body ++ [quote]) = none ↔ ¬ hasEntities (quote :: body ++ [quote]) := by
      simp [decodeLiteral?]
    rw [none_iff, hasEntities_iff]
    simp only [not_exists, not_and]

/-- A backslash that escaped the ampersand of an entity goes on to escape the quote that it stands for, and a quote
behind a pair of backslashes gets one of its own. -/
theorem literal_decoded_slashes :
    IsLiteral '"' "\\&quot;\\\\&quot;".toList "\"\\&quot;\\\\&quot;\"".toList ∧
      ∃ decoded, IsLiteral '"' decoded "\"\\\"\\\\\\\"\"".toList := by
  have literal : IsLiteral '"' "\\&quot;\\\\&quot;".toList "\"\\&quot;\\\\&quot;\"".toList := by
    have word : ∀ c ∈ ['q', 'u', 'o', 't', ';'], c ≠ '"' ∧ c ≠ '\\' := by simp
    have second : Body '"' ('\\' :: '\\' :: '&' :: (['q', 'u', 'o', 't', ';'] ++ [])) :=
      .escape (.plain (by decide) (by decide) (.append word .nil))
    exact ⟨.inr rfl, .escape (.append word second), by decide⟩
  have decoded : decodeLiteral? "\"\\&quot;\\\\&quot;\"".toList = some "\"\\\"\\\\\\\"\"".toList := by decide
  obtain ⟨body, result, -⟩ := (literal_decoded literal).1 _ decoded
  exact ⟨literal, body, result⟩

end SourceRepair.Text
