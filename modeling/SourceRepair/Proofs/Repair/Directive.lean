import SourceRepair.Proofs.Conflicts.Statements
import SourceRepair.Proofs.Script.Opening

/-!
# The directive in its place

The client directive is put on a line of its own in front of all statements, behind the line of a hashbang,
and there it is the first directive for every reader. The copies of it are taken away with the white space that
goes with them. What the statements around a copy then are is not looked at: a copy may end the statement in
front of it, and without it that goes on.
-/

namespace SourceRepair

open Text (Inked byteLength removalRange)

namespace Repair

open Script

variable {leniency : Leniency} {file : SourceFile} {text : String} {p : Program} {bang : Option Span}
  {front here kept cs : List Char} {s : Span}

/-! ### What the pass drafts -/

/-- The removal of all copies of the directive. -/
def removalDraft (p : Program) (cs : List Char) : Draft where
  edits := (misplacedDirectives p).map fun s => .remove (removalRange cs s)
  changes := (misplacedDirectives p).map fun s =>
    (.directivePlaced, "removed a misplaced or duplicate \x27use client\x27", s.start)

/-- The draft for a program that says in its first directive where it runs. -/
theorem draft_clientDirective_kept (cs : List Char) (starts : startsWithDirective p = true) :
    clientDirective.draft ⟨p, cs, file⟩ = if needsDirective file p then removalDraft p cs else {} := by
  unfold clientDirective needsDirective
  dsimp only
  cases file.isTest || file.inPagesDirectory || p.hasDirective "use server" || !usesClientFeatures p with
  | true => rfl
  | false =>
    rw [starts]
    exact congrArg (Draft.mk · _ _) ((List.append_nil _).trans (List.append_nil _))

/-- The entries in the record of changes. -/
def directiveChanges (p : Program) (text : String) : List Change :=
  (if startsWithDirective p then [] else
    [⟨.directivePlaced, "added \x27use client\x27 as the first statement",
      some (Text.location text.toList (p.hashbangEnd text.toList))⟩]) ++
    (removalDraft p text.toList).located text

theorem located_clientDirective (needs : needsDirective file p) :
    (clientDirective.draft ⟨p, text.toList, file⟩).located text = directiveChanges p text := by
  cases starts : startsWithDirective p with
  | true =>
    rw [draft_clientDirective_kept _ starts, if_pos needs, directiveChanges, starts]
    rfl
  | false =>
    unfold needsDirective at needs
    rw [Bool.not_eq_true'] at needs
    unfold clientDirective directiveChanges
    dsimp only
    rw [needs, starts]
    rfl

theorem warnings_clientDirective (file : SourceFile) (p : Program) (cs : List Char) :
    (clientDirective.draft ⟨p, cs, file⟩).warnings = [] := by
  unfold clientDirective
  dsimp only
  split
  · rfl
  · split <;> rfl

/-! ### Where the directive is put -/

theorem byteLength_mark (line : List Char) : 2 + byteLength line = byteLength ('#' :: '!' :: line) := by
  have hash : Char.utf8Size '#' = 1 := rfl
  have mark : Char.utf8Size '!' = 1 := rfl
  simp only [Text.byteLength_cons, hash, mark]
  omega

theorem hashbangEnd_of_lead (lead : Lead front p.hashbang) (cs : List Char) :
    p.hashbangEnd (front ++ cs) = byteLength front := by
  generalize found : p.hashbang = bang at lead
  unfold Program.hashbangEnd
  rw [found]
  cases lead with
  | none => rfl
  | @hashbang line one =>
    have whole : '#' :: '!' :: (line ++ ['\n']) ++ cs = '#' :: '!' :: line ++ '\n' :: cs := by simp
    rw [whole]
    simp only [byteLength_mark, Text.lineEndAfter, Text.splitAt_append]
    rw [show '#' :: '!' :: (line ++ ['\n']) = '#' :: '!' :: line ++ ['\n'] from rfl, Text.byteLength_append]
    rfl

/-- A copy is a later directive or a statement. -/
theorem of_mem_misplaced (misplaced : s ∈ misplacedDirectives p) :
    (∃ d ∈ if startsWithDirective p then p.directives.drop 1 else p.directives, d.span = s) ∨
      ∃ t ∈ p.body, t.span = s := by
  refine (List.mem_append.mp misplaced).imp ?_ ?_
  all_goals
    intro listed
    obtain ⟨x, member, rfl⟩ := List.mem_map.mp listed
    exact ⟨x, List.mem_of_mem_filter member, rfl⟩

/-- Copies of the directive start behind the line of the hashbang. -/
theorem lead_le_misplaced (standing : p.Standing (front ++ cs)) (lead : Lead front p.hashbang)
    (misplaced : s ∈ misplacedDirectives p) : byteLength front ≤ s.start := by
  have behind : ∀ bang ∈ p.hashbang, bang.stop ≤ s.start := by
    intro bang found
    obtain ⟨-, directives, statements⟩ := (of_decide_eq_true standing.headed).1 bang found
    rcases of_mem_misplaced misplaced with ⟨d, member, rfl⟩ | ⟨t, member, rfl⟩
    · refine directives d ?_
      split at member
      · exact List.mem_of_mem_drop member
      · exact member
    · exact statements t member
  obtain ⟨before, part, back, whole, rfl, ink⟩ := (misplaced_inked standing misplaced).split
  generalize p.hashbang = bang at lead behind
  cases lead with
  | none => exact Nat.zero_le _
  | @hashbang line one =>
    -- What starts right behind the hashbang is the newline, which no statement starts with.
    have stop : byteLength ('#' :: '!' :: line) ≤ byteLength before := byteLength_mark line ▸ behind _ rfl
    have cut : '#' :: '!' :: line ++ '\n' :: cs = before ++ (part ++ back) := by simpa using whole
    obtain ⟨gap, rfl, rest⟩ := Edit.exists_gap cut stop
    cases gap with
    | nil =>
      obtain ⟨c, part, rfl, solid⟩ := ink.exists_cons
      cases rest
      cases solid
    | cons c gap =>
      cases rest
      simp

/-! ### What the pass leaves -/

/-- The directive on a line of its own. -/
def directiveLine : List Char := '\x27' :: (clientDirectiveText.toList ++ ['\x27', ';', '\n'])

/-- What stands where the directive belongs, and what the pass leaves there: a new line, or the directive itself
if a semicolon ends it. -/
inductive Slot (p : Program) : List Char → List Char → Prop
  | placed (absent : startsWithDirective p = false) : Slot p [] directiveLine
  | kept {quote : Char} (quotes : quote = '"' ∨ quote = '\x27') :
    Slot p (quote :: (clientDirectiveText.toList ++ [quote, ';']))
      (quote :: (clientDirectiveText.toList ++ [quote, ';']))

/-- Every reader finds the directive first. -/
theorem directive_of_quoted {quote : Char} {rest : List Char} (quotes : quote = '"' ∨ quote = '\x27')
    (lead : Lead front bang)
    (whole : text.toList = front ++ quote :: (clientDirectiveText.toList ++ quote :: ';' :: rest))
    (read : parseScript leniency file text = .ok p) :
    p.hashbang = bang ∧
      p.directives.head? = some ⟨clientDirectiveText, ⟨byteLength front, byteLength front + 13⟩⟩ := by
  obtain ⟨dialect, -, read⟩ := parse_of_parseScript read
  obtain ⟨same, others, directives⟩ := directive_first (.lead lead) quotes rfl whole read
  exact ⟨same, by rw [← directives]; rfl⟩

theorem startsWithDirective_of_head {span : Span} (first : p.directives.head? = some ⟨clientDirectiveText, span⟩) :
    startsWithDirective p = true := by
  rw [startsWithDirective, first]
  rfl

/-- The copies of the directive, which are taken away. -/
def copies (p : Program) : List Patch := (misplacedDirectives p).map fun s => ⟨s, none⟩

/-- Nothing is taken away in front of the place of the directive or in it. -/
theorem slot_le_removal (read : parseScript leniency file text = .ok p) (standing : p.Standing text.toList)
    (lead : Lead front p.hashbang) (slot : Slot p here kept) (whole : text.toList = front ++ (here ++ cs))
    (misplaced : s ∈ misplacedDirectives p) : byteLength (front ++ here) ≤ (removalRange text.toList s).start := by
  have inked := misplaced_inked standing misplaced
  cases slot with
  | placed absent =>
    rw [List.nil_append] at whole
    rw [List.append_nil, ← hashbangEnd_of_lead lead cs, ← whole]
    refine hashbangEnd_le standing inked ?_
    rw [whole, hashbangEnd_of_lead lead]
    rw [whole] at standing
    exact lead_le_misplaced standing lead misplaced
  | @kept quote quotes =>
    have quoted : text.toList = front ++ quote :: (clientDirectiveText.toList ++ quote :: ';' :: cs) := by
      simpa using whole
    obtain ⟨-, first⟩ := directive_of_quoted quotes lead quoted read
    obtain ⟨d, ds, directives⟩ : ∃ d ds, p.directives = d :: ds := by
      cases same : p.directives with
      | nil => simp [same] at first
      | cons d ds => exact ⟨d, ds, rfl⟩
    have before : d.span.stop ≤ s.start := by
      have member : d ∈ p.directives := directives ▸ List.mem_cons_self
      rcases of_mem_misplaced misplaced with ⟨e, later, rfl⟩ | ⟨t, later, rfl⟩
      · rw [startsWithDirective_of_head first, if_pos rfl, directives] at later
        exact (List.pairwise_cons.mp (directives ▸ standing.directives)).1 e later
      · exact (standing.directive member).2 t later
    have inked' := (standing.directive (directives ▸ List.mem_cons_self : d ∈ p.directives)).1
    have apart := Text.removalRange_apart inked' inked before
    have covers := (Text.removalRange_covers inked').2.1
    rw [directives] at first
    cases first
    have length : byteLength (front ++ quote :: (clientDirectiveText.toList ++ [quote, ';'])) =
        byteLength front + 13 := by
      rcases quotes with rfl | rfl <;> exact Text.byteLength_append ..
    dsimp only at apart covers
    omega

/-- The copies are taken away without conflict, and the directive stands in its place. -/
theorem applyAll_clientDirective (read : parseScript leniency file text = .ok p) (standing : p.Standing text.toList)
    (needs : needsDirective file p) (lead : Lead front p.hashbang) (slot : Slot p here kept)
    (whole : text.toList = front ++ (here ++ cs)) :
    ∃ rest, Patched (front ++ here) (copies p) cs rest ∧
      Edit.applyAll (clientDirective.draft ⟨p, text.toList, file⟩).edits text =
        .ok (String.ofList (front ++ (kept ++ rest))) := by
  have inked : ∀ q ∈ copies p, Inked text.toList q.span := List.forall_mem_map.mpr fun s => misplaced_inked standing
  have apart : (copies p).Pairwise fun a b => a.span.stop ≤ b.span.start :=
    List.pairwise_map.mpr (misplaced_pairwise standing)
  have behind : ∀ q ∈ copies p, byteLength (front ++ here) ≤ (q.edit text.toList).span.start :=
    List.forall_mem_map.mpr fun s => slot_le_removal read standing lead slot whole
  have rising := Edit.rising_patches inked apart
  obtain ⟨rest, spliced, patched⟩ := Edit.splice_patches text.toList (front ++ here) cs
    (whole.trans (List.append_assoc ..).symm) inked behind apart
  have edits : (misplacedDirectives p).map (fun s => Edit.remove (removalRange text.toList s)) =
      (copies p).map (Patch.edit text.toList) := by
    rw [copies, List.map_map]
    rfl
  refine ⟨rest, patched, ?_⟩
  rw [edits_clientDirective, if_pos needs, edits, Edit.applyAll]
  cases slot with
  | placed absent =>
    have replaces : ∀ e ∈ (copies p).map (Patch.edit text.toList), e.anchor = .replacing :=
      List.forall_mem_map.mpr fun q member => (q.edit_removes (inked q member)).replacing (inked q member)
    rw [List.append_nil] at spliced behind
    rw [List.nil_append] at whole
    have offset := hashbangEnd_of_lead lead cs
    rw [← whole] at offset
    rw [absent, if_neg Bool.false_ne_true, placement, offset,
      Edit.sorted_concat_insert _ replaces (List.forall_mem_map.mpr behind) rising]
    have line : ("\x27" ++ clientDirectiveText ++ "\x27;\n").toList = directiveLine := by simp [directiveLine]
    have step := Edit.splice_insert ("\x27" ++ clientDirectiveText ++ "\x27;\n") spliced
    rw [← whole, line] at step
    rw [step]
    rfl
  | @kept quote quotes =>
    have quoted : text.toList = front ++ quote :: (clientDirectiveText.toList ++ quote :: ';' :: cs) := by
      simpa using whole
    obtain ⟨-, first⟩ := directive_of_quoted quotes lead quoted read
    have step := Edit.splice_front (List.forall_mem_map.mpr behind) spliced
    rw [List.append_assoc, ← whole] at step
    rw [startsWithDirective_of_head first, if_pos rfl, List.append_nil, Edit.sorted_eq_of_perm (.refl _) rising, step,
      List.append_assoc]
    rfl

theorem Slot.quoted (slot : Slot p here kept) : ∃ quote more, (quote = '"' ∨ quote = '\x27') ∧
    kept = quote :: (clientDirectiveText.toList ++ quote :: ';' :: more) := by
  cases slot with
  | placed => exact ⟨'\x27', ['\n'], .inr rfl, rfl⟩
  | @kept quote quotes => exact ⟨quote, [], quotes, rfl⟩

/-- Where the pass applies, it leaves the directive in its place, behind the line of a hashbang, and takes its
copies away. Every reader of what it leaves finds the hashbang as it was and the directive first, and another
run of the pass takes away the copies that this reader finds, and nothing else. -/
theorem directive_placed (read : parseScript leniency file text = .ok p) (standing : p.Standing text.toList)
    (needs : needsDirective file p) (lead : Lead front p.hashbang) (slot : Slot p here kept)
    (whole : text.toList = front ++ (here ++ cs)) :
    ∃ code rest, code.toList = front ++ (kept ++ rest) ∧ Patched (front ++ here) (copies p) cs rest ∧
      applyAll [clientDirective] leniency file text = (do
        validate file code
        return ⟨code, directiveChanges p text, []⟩) ∧
      ∀ leniency' q, parseScript leniency' file code = .ok q →
        q.hashbang = p.hashbang ∧ startsWithDirective q ∧
        clientDirective.draft ⟨q, code.toList, file⟩ =
          if needsDirective file q then removalDraft q code.toList else {} := by
  obtain ⟨rest, patched, applied⟩ := applyAll_clientDirective read standing needs lead slot whole
  refine ⟨_, rest, String.toList_ofList, patched, ?_, fun leniency' q again => ?_⟩
  · rw [applyAll_of_read read, Draft.finish_of_applyAll applied, located_clientDirective needs,
      warnings_clientDirective]
    rfl
  · obtain ⟨quote, more, quotes, rfl⟩ := slot.quoted
    have quoted : (String.ofList (front ++ (quote :: (clientDirectiveText.toList ++ quote :: ';' :: more) ++ rest))).toList =
        front ++ quote :: (clientDirectiveText.toList ++ quote :: ';' :: (more ++ rest)) := by simp
    obtain ⟨same, first⟩ := directive_of_quoted quotes lead quoted again
    have starts := startsWithDirective_of_head first
    exact ⟨same, starts, draft_clientDirective_kept _ starts⟩

set_option maxRecDepth 100000

theorem directive_placed_once :
    let file : SourceFile := ⟨⟨"a.js"⟩, .script ⟨false, false, true, .module⟩, none⟩
    let text := "#!x\n\x27use strict\x27;\nuseState();\n\x27use client\x27;\n"
    let front := ['#', '!', 'x', '\n']
    let cs := "\x27use strict\x27;\nuseState();\n\x27use client\x27;\n".toList
    ∃ p, parseScript .strict file text = .ok p ∧ needsDirective file p ∧ copies p = [⟨⟨30, 43⟩, none⟩] ∧
      ∃ code rest, code.toList = front ++ (directiveLine ++ rest) ∧ Patched (front ++ []) (copies p) cs rest ∧
        applyAll [clientDirective] .strict file text = (do
          validate file code
          return ⟨code, directiveChanges p text, []⟩) ∧
        ∀ leniency' q, parseScript leniency' file code = .ok q →
          q.hashbang = p.hashbang ∧ startsWithDirective q ∧
          clientDirective.draft ⟨q, code.toList, file⟩ =
            if needsDirective file q then removalDraft q code.toList else {} := by
  intro file text front cs
  have found : (parse? .strict ⟨false, false, true, .module⟩ text).map (fun p =>
      (p.stands text.toList 20, needsDirective file p, startsWithDirective p, p.hashbang, misplacedDirectives p)) =
        some (true, true, false, some ⟨0, 3⟩, [⟨30, 43⟩]) := by
    decide +kernel
  obtain ⟨p, read, found⟩ := Option.map_eq_some_iff.mp found
  simp only [Prod.mk.injEq] at found
  obtain ⟨stands, needs, absent, bang, misplaced⟩ := found
  have read := (parseScript_of_parse rfl read : parseScript .strict file text = .ok p)
  have one : ∀ c ∈ ['x'], isLineEnd c = false := List.forall_mem_singleton.mpr rfl
  have lead : Lead front p.hashbang := bang ▸ Lead.hashbang one
  have whole : text.toList = front ++ ([] ++ cs) := by simp [text, front, cs]
  exact ⟨p, read, needs, by rw [copies, misplaced]; rfl,
    directive_placed read (.of_stands stands) needs lead (.placed absent) whole⟩

/-! ### A directive that goes on -/

/-- In `'use client'⏎'use client';(useState());` the copy ends the directive in front of it. Without the copy the
directive is part of a call, so no directive is left, and another run of the pass puts one in front. -/
theorem directive_called :
    let file : SourceFile := ⟨⟨"a.js"⟩, .script ⟨false, false, true, .module⟩, none⟩
    let text := "\x27use client\x27\n\x27use client\x27;(useState());\n"
    ∃ (p q : Program) (done : Rewrite),
      parseScript .strict file text = .ok p ∧ p.hashbang = none ∧ needsDirective file p ∧
      applyAll [clientDirective] .strict file text = .ok done ∧
      parseScript .strict file done.code = .ok q ∧ needsDirective file q ∧
      startsWithDirective q = false ∧ (clientDirective.draft ⟨q, done.code.toList, file⟩).changes ≠ [] := by
  intro file text
  let dialect : Dialect := ⟨false, false, true, .module⟩
  let code := "\x27use client\x27\n(useState());\n"
  let d : Draft := .change [.remove ⟨13, 26⟩] .directivePlaced
    "removed a misplaced or duplicate \x27use client\x27" 13
  have before : (parse? .strict dialect text).map (fun p => (p.hashbang, needsDirective file p,
      clientDirective.draft ⟨p, text.toList, file⟩)) = some (none, true, d) := by
    decide +kernel
  have behind : (parse? .strict dialect code).map (fun q => (needsDirective file q, startsWithDirective q,
      (clientDirective.draft ⟨q, code.toList, file⟩).changes.length)) = some (true, false, 1) := by
    decide +kernel
  obtain ⟨p, read, found⟩ := Option.map_eq_some_iff.mp before
  obtain ⟨q, again, found'⟩ := Option.map_eq_some_iff.mp behind
  simp only [Prod.mk.injEq] at found found'
  obtain ⟨bang, needs, drafted⟩ := found
  obtain ⟨needs', absent, one⟩ := found'
  have drafted : (parse? .strict dialect text).map
      (fun p => clientDirective.draft ⟨p, text.toList, file⟩) = some d := by
    rw [read, Option.map_some, drafted]
  have spliced : (Edit.splice d.edits 0 text.toList).toOption = some code.toList := by
    decide +kernel
  have finished := d.finish_of_text (by decide) (by decide) spliced
  have valid : (parse? .strict dialect code).isSome = true := Option.isSome_iff_exists.mpr ⟨q, again⟩
  exact ⟨p, q, _, parseScript_of_parse rfl read, bang, needs, applyAll_of_draft rfl drafted finished valid,
    parseScript_of_parse rfl again, needs', absent, fun none => by simp [none] at one⟩

end Repair

end SourceRepair
