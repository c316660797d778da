import CrossAsm.Proofs.Checked
import CrossAsm.Proofs.Literals
import CrossAsm.Proofs.Moved

/-!
A source text and its tokens. If all of a text can be lexed, nothing in it is lost: every token is what
its part of the text spells, as far as it goes on, and between the tokens there are only blanks and
comments (`lexing_loses_nothing`).
-/
namespace CrossAsm

namespace Window

/-- Takes tokens until there is none. -/
def takeAll (w : Window) : Except ScanFault (List Token) :=
  match _h : take w with
  | .error fault _ => .error fault
  | .ok none _ => .ok []
  | .ok (some t) after => after.takeAll.map (t :: ·)
termination_by w.pending
decreasing_by
  have current := take_eq_current _h
  have fewer := take_pending _h
  simp only [← current, Option.toList_some, List.length_singleton] at fewer
  omega

/-- All tokens of a source text. -/
def tokens (source : List Char) : Except ScanFault (List Token) := do
  let w ← ofChars source
  w.takeAll

theorem takeAll_of_take {w after : Window} {token : Option Token} (taken : take w = .ok token after) :
    w.takeAll = token.elim (.ok []) fun t => after.takeAll.map (t :: ·) := by
  rw [takeAll]
  split
  next failed => cases taken.symm.trans failed
  next again =>
    cases taken.symm.trans again
    rfl
  next again =>
    cases taken.symm.trans again
    rfl

theorem takeAll_of_shows {w : Window} {ts : List Token} (shows : w.Shows ts) : w.takeAll = .ok ts := by
  induction ts generalizing w with
  | nil =>
    have ended : ∃ after, take w = .ok none after := by
      obtain ⟨length, index, current, ahead, rest⟩ := w
      obtain ⟨rfl, rfl, rfl⟩ := shows
      exact ⟨_, rfl⟩
    obtain ⟨after, taken⟩ := ended
    rw [takeAll_of_take taken, Option.elim_none]
  | cons t ts ih =>
    obtain ⟨after, moved, shown⟩ := shows.advance
    have taken : take w = .ok (some t) after := by
      unfold take
      rw [moved, shows.current]
      rfl
    rw [takeAll_of_take taken, Option.elim_some, ih shown]
    rfl

theorem exists_reaches_of_takeAll {w : Window} {ts : List Token} (taken : w.takeAll = .ok ts) :
    ∃ last, w.Reaches last ∧ last.current = none := by
  fun_induction takeAll w generalizing ts with
  | case1 => cases taken
  | case2 w after ended => exact ⟨w, .refl, (take_eq_current ended).symm⟩
  | case3 w t after first ih =>
    obtain ⟨later, others, _⟩ := map_eq_ok_iff.mp taken
    obtain ⟨last, reaches, absent⟩ := ih others
    exact ⟨last, .head ⟨some t, first⟩ reaches, absent⟩

theorem tokens_of_scan {source : List Char} {ts : List Token}
    (scanned : Token.Stream.ofChars source = ⟨ts.map .ok, none⟩) : tokens source = .ok ts := by
  obtain ⟨w, opened, shows⟩ := shows_of_ofChars scanned
  exact bind_eq_ok_iff.mpr ⟨w, opened, takeAll_of_shows shows⟩

/-- If every token can be taken, they are those of the scan. -/
theorem scan_of_tokens {source : List Char} {ts : List Token} (lexed : tokens source = .ok ts) :
    Token.Stream.ofChars source = ⟨ts.map .ok, none⟩ := by
  obtain ⟨w, opened, taken⟩ := bind_eq_ok_iff.mp lexed
  obtain ⟨settled, whole⟩ := ofChars_eq_ok opened
  obtain ⟨last, reaches, absent⟩ := exists_reaches_of_takeAll taken
  obtain ⟨us, scanned⟩ := whole (reaches.faultless ((reaches.settled settled).faultless absent))
  cases lexed.symm.trans (tokens_of_scan scanned)
  exact scanned

end Window

/-- The character at the offset belongs to a comment: a semicolon stands there or before it, and no line
ends in between. -/
def InComment (source : List Char) (offset : Nat) : Prop :=
  ∃ start, start ≤ offset ∧ source[start]? = some ';' ∧
    ∀ place, start ≤ place → place ≤ offset → source[place]? ≠ some '\n'

/-- No comment runs on to the offset. -/
def Uncommented (source : List Char) (offset : Nat) : Prop :=
  ∀ start, start < offset → source[start]? = some ';' →
    ∃ place, start ≤ place ∧ place < offset ∧ source[place]? = some '\n'

section Comments

variable {source part : List Char} {offset : Nat}

theorem exists_mem_of_between (stands : part <+: source.drop offset) {place : Nat}
    (behind : offset ≤ place) (before : place < offset + part.length) :
    ∃ c ∈ part, source[place]? = some c := by
  obtain ⟨rest, same⟩ := stands
  obtain ⟨i, rfl⟩ := Nat.exists_eq_add_of_le behind
  have inside : i < part.length := by omega
  refine ⟨part[i], List.getElem_mem inside, ?_⟩
  rw [← List.getElem?_drop, ← same, List.getElem?_append_left inside, List.getElem?_eq_getElem inside]

theorem InComment.ne_newline (commented : InComment source offset) : source[offset]? ≠ some '\n' := by
  obtain ⟨start, order, _, single⟩ := commented
  exact single offset order (Nat.le_refl _)

theorem uncommented_zero : Uncommented source 0 := by
  intro start before
  cases before

theorem uncommented_of_newline (ended : source[offset]? = some '\n') : Uncommented source (offset + 1) :=
  fun _ before _ => ⟨offset, Nat.le_of_lt_succ before, Nat.lt_succ_self _, ended⟩

/-- Where no comment runs on, a part without semicolon starts none. -/
theorem Uncommented.within (uncommented : Uncommented source offset)
    (stands : part <+: source.drop offset) (free : ';' ∉ part) {place : Nat} (behind : offset ≤ place)
    (before : place ≤ offset + part.length) : Uncommented source place := by
  intro start earlier semicolon
  by_cases early : start < offset
  · obtain ⟨newline, order, later, ended⟩ := uncommented start early semicolon
    exact ⟨newline, order, by omega, ended⟩
  · obtain ⟨c, member, same⟩ := exists_mem_of_between stands (Nat.le_of_not_lt early) (by omega)
    cases semicolon.symm.trans same
    exact absurd member free

theorem Uncommented.not_inComment (uncommented : Uncommented source offset)
    (other : source[offset]? ≠ some ';') : ¬ InComment source offset := by
  rintro ⟨start, order, semicolon, single⟩
  rcases Nat.lt_or_eq_of_le order with before | rfl
  · obtain ⟨place, behind, before', ended⟩ := uncommented start before semicolon
    exact single place behind (Nat.le_of_lt before') ended
  · exact other semicolon

end Comments

section Gaps

open Token (skipBlank)

/-- A comment ends only where the line or the text does. -/
theorem newline_of_skipBlank (offset : Nat) (cs : List Char) :
    ∀ c ∈ (skipBlank true offset cs).2.head?, c = '\n' := by
  induction cs generalizing offset with
  | nil => simp [skipBlank]
  | cons c cs ih =>
    rw [skipBlank]
    split
    next newline => simp [newline]
    next => simpa using ih (offset + 1)

/-- What is passed over: blanks, and then maybe a comment up to the end of the line. -/
theorem exists_comment_of_skipBlank (offset : Nat) (cs : List Char) :
    ∃ blanks comment, cs = blanks ++ (comment ++ (skipBlank false offset cs).2) ∧
      (skipBlank false offset cs).1 = offset + blanks.length + comment.length ∧
      (∀ c ∈ blanks, c ≠ '\n' ∧ isBlank c) ∧
      (comment = [] ∨ comment.head? = some ';' ∧ '\n' ∉ comment ∧
        ∀ c ∈ (skipBlank false offset cs).2.head?, c = '\n') := by
  induction cs generalizing offset with
  | nil => exact ⟨[], [], rfl, rfl, by simp, .inl rfl⟩
  | cons c cs ih =>
    rw [skipBlank]
    split
    next => exact ⟨[], [], rfl, rfl, by simp, .inl rfl⟩
    next other =>
      split
      next semicolon =>
        have same : c = ';' := by simpa using semicolon
        obtain ⟨gap, single, divided, reached⟩ := Token.exists_gap_of_skipBlank true (offset + 1) cs
        refine ⟨[], c :: gap, ?_, ?_, by simp, .inr ⟨by rw [same]; rfl, ?_, ?_⟩⟩
        · rw [List.nil_append, List.cons_append, ← divided]
        · rw [reached, List.length_nil, List.length_cons]
          omega
        · simpa [eq_comm] using ⟨other, single⟩
        · exact newline_of_skipBlank _ _
      next =>
        split
        next blank =>
          obtain ⟨blanks, comment, divided, reached, all, ended⟩ := ih (offset + 1)
          refine ⟨c :: blanks, comment, ?_, ?_, List.forall_mem_cons.mpr ⟨⟨other, blank⟩, all⟩, ended⟩
          · rw [List.cons_append, ← divided]
          · rw [reached, List.length_cons]
            omega
        next => exact ⟨[], [], rfl, rfl, by simp, .inl rfl⟩

/-- The characters from one offset up to another make no token. -/
def Passed (source : List Char) (first last : Nat) : Prop :=
  ∀ place c, first ≤ place → place < last → source[place]? = some c →
    c ≠ '\n' ∧ isBlank c ∨ InComment source place

variable {source cs : List Char} {offset : Nat}

/-- What stands before the next token is passed over, and no comment runs on to it unless it ends the
line. -/
theorem passed_of_skipBlank (left : source.drop offset = cs) (uncommented : Uncommented source offset) :
    Passed source offset (skipBlank false offset cs).1 ∧
      (Uncommented source (skipBlank false offset cs).1 ∨
        ∀ c ∈ (skipBlank false offset cs).2.head?, c = '\n') := by
  obtain ⟨blanks, comment, divided, reached, all, ended⟩ := exists_comment_of_skipBlank offset cs
  have front : blanks <+: source.drop offset := ⟨_, (left.trans divided).symm⟩
  have behind : source.drop (offset + blanks.length) = comment ++ (skipBlank false offset cs).2 := by
    rw [← List.drop_drop, left.trans divided, List.drop_left]
  constructor
  · intro place c first last here
    by_cases early : place < offset + blanks.length
    · obtain ⟨d, member, there⟩ := exists_mem_of_between front first early
      cases here.symm.trans there
      exact .inl (all c member)
    · rcases ended with rfl | ⟨semicolon, single, _⟩
      · rw [reached, List.length_nil] at last
        omega
      · refine .inr ⟨offset + blanks.length, Nat.le_of_not_lt early, ?_, ?_⟩
        · rw [← List.head?_drop, behind, List.head?_append, semicolon, Option.some_or]
        · intro between order before newline
          obtain ⟨d, member, there⟩ := exists_mem_of_between ⟨_, behind.symm⟩ order (by omega)
          cases newline.symm.trans there
          exact single member
  · rcases ended with rfl | ⟨_, _, newline⟩
    · left
      rw [reached, List.length_nil, Nat.add_zero]
      refine uncommented.within front ?_ (Nat.le_add_right _ _) (Nat.le_refl _)
      intro member
      cases (all _ member).2
    · exact .inr newline

theorem drop_of_skipBlank (left : source.drop offset = cs) :
    offset ≤ (skipBlank false offset cs).1 ∧
      source.drop (skipBlank false offset cs).1 = (skipBlank false offset cs).2 := by
  obtain ⟨gap, _, divided, reached⟩ := Token.exists_gap_of_skipBlank false offset cs
  refine ⟨by omega, ?_⟩
  rw [reached, ← List.drop_drop, left]
  exact (congrArg (List.drop gap.length) divided).trans List.drop_left

/-- What is passed over ends no line. -/
theorem Passed.newlinesBefore {last : Nat} (passed : Passed source offset last) (order : offset ≤ last) :
    newlinesBefore source last = newlinesBefore source offset := by
  obtain ⟨count, rfl⟩ := Nat.exists_eq_add_of_le order
  unfold CrossAsm.newlinesBefore
  rw [List.take_add, List.count_append, Nat.add_eq_left, List.count_eq_zero]
  intro member
  obtain ⟨i, inside, same⟩ := List.getElem_of_mem member
  rw [List.length_take] at inside
  have here : source[offset + i]? = some '\n' := by
    rw [← List.getElem?_drop, ← same, List.getElem_take, List.getElem?_eq_getElem]
  rcases passed _ _ (Nat.le_add_right _ _) (by omega) here with ⟨other, _⟩ | commented
  · exact other rfl
  · exact commented.ne_newline here

end Gaps

namespace Token

/-- The text spells a token of the kind. -/
def Kind.Spells (text : List Char) : Kind → Prop
  | .word name => isIdentifier name ∧ text = name.toList
  | .number value => Numeral.Denotes text value.toInt
  | .punct p => text = [p.toChar]
  | .newline => text = ['\n']

/-- The character would be part of the token if it came next. -/
def Kind.goesOnWith (c : Char) : Kind → Bool
  | .word _ => c.isAlphanum || c == '_' || c == '.'
  | .number _ => c.isAlphanum
  | .punct _ | .newline => false

/-- The token is what its part of the text spells, and the part is as long as it can be. -/
structure Stands (source : List Char) (t : Token) : Prop where
  nonempty : t.span.start < t.span.stop
  inside : t.span.stop ≤ source.length
  spelled : t.kind.Spells ((source.drop t.span.start).take (t.span.stop - t.span.start))
  whole : ∀ c, source[t.span.stop]? = some c → t.kind.goesOnWith c = false

theorem stops_of_lexeme? {offset stop : Nat} {c : Char} {cs rest : List Char} {t : Token}
    (lexed : lexeme? offset c cs = some (.ok t, stop, rest)) :
    ∀ d ∈ rest.head?, t.kind.goesOnWith d = false := by
  have stops (p : Char → Bool) : ∀ d ∈ (cs.dropWhile p).head?, p d = false := by
    intro d first
    have none := List.head?_dropWhile_not p cs
    rwa [Option.mem_def.mp first] at none
  unfold lexeme? at lexed
  split at lexed
  next =>
    cases lexed
    exact fun _ _ => rfl
  next =>
    split at lexed
    next =>
      cases lexed
      exact fun _ _ => rfl
    next =>
      split at lexed
      next =>
        cases lexed
        exact stops continuesWord
      next =>
        split at lexed
        next =>
          simp only [Option.some.injEq, Prod.mk.injEq] at lexed
          obtain ⟨item, _, rfl⟩ := lexed
          split at item
          next =>
            cases item
            exact stops Char.isAlphanum
          next => cases item
        next => cases lexed

end Token

namespace Lexeme

variable {source : List Char} {offset : Nat} {l : Lexeme}

theorem solid_of_mem_chars (valid : l.Valid) (visible : l ≠ blank) (inner : l ≠ newline) :
    ∀ c ∈ l.chars, Token.Solid c := by
  cases l with
  | blank => exact absurd rfl visible
  | newline => exact absurd rfl inner
  | punct p =>
    rw [chars, List.forall_mem_singleton]
    cases p <;> exact ⟨by decide, by decide⟩
  | word name =>
    obtain ⟨c, cs, spelled, starts, all⟩ := exists_cons_of_isIdentifier valid
    rw [chars, spelled]
    exact List.forall_mem_cons.mpr ⟨Token.solid_of_continuesWord (Token.continuesWord_of_startsWord starts),
      fun d member => Token.solid_of_continuesWord (all d member)⟩
  | number literal =>
    obtain ⟨c, cs, rfl, starts, all⟩ := valid
    refine List.forall_mem_cons.mpr ⟨Token.solid_of_startsNumber starts, fun d member => ?_⟩
    exact Token.solid_of_continuesWord (by simp [Token.continuesWord, all d member])

theorem stop_of_item? {t : Token} (made : l.item? offset = some (.ok t)) :
    t.span.stop = offset + l.chars.length := by rw [(token_of_item? made).1]

theorem StandsAt.stands {t : Token} (stands : l.StandsAt source offset)
    (made : l.item? offset = some (.ok t))
    (whole : ∀ c, source[t.span.stop]? = some c → t.kind.goesOnWith c = false) : t.Stands source := by
  have bound := stands.stop_le
  have long := length_pos stands.valid
  have span := (token_of_item? made).1
  have slice : (source.drop offset).take (offset + l.chars.length - offset) = l.chars := by
    rw [Nat.add_sub_cancel_left]
    exact (List.prefix_iff_eq_take.mp stands.spelled).symm
  refine ⟨by rw [span]; dsimp only; omega, by rw [span]; exact bound, ?_, whole⟩
  rw [span, slice]
  cases l with
  | blank => cases made
  | punct | newline =>
    cases made
    rfl
  | word name =>
    cases made
    exact ⟨stands.valid, rfl⟩
  | number literal =>
    cases read : Numeral.parse? literal with
    | none => simp [item?, read] at made
    | some n =>
      simp only [item?, read, Option.some.injEq, Except.ok.injEq] at made
      rw [← made]
      exact Numeral.denotes_of_parse? read

/-- The characters of a lexeme are seen: none is blank or in a comment. -/
theorem StandsAt.visible_of_between (stands : l.StandsAt source offset)
    (comment : Uncommented source offset ∨ l = newline) {place : Nat} {c : Char} (behind : offset ≤ place)
    (before : place < offset + l.chars.length) (here : source[place]? = some c) :
    ¬ (c ≠ '\n' ∧ isBlank c ∨ InComment source place) := by
  obtain ⟨d, member, there⟩ := exists_mem_of_between stands.spelled behind before
  cases here.symm.trans there
  by_cases ended : l = newline
  · subst ended
    cases List.mem_singleton.mp member
    rintro (⟨other, _⟩ | commented)
    · exact other rfl
    · exact commented.ne_newline here
  · have solid := solid_of_mem_chars stands.valid stands.visible ended
    have uncommented := (comment.resolve_right ended).within stands.spelled
      (fun semicolon => (solid _ semicolon).2 rfl) behind (Nat.le_of_lt before)
    rintro (⟨_, blank⟩ | commented)
    · rw [Token.isBlank_of_printable (solid c member).1] at blank
      cases blank
    · refine uncommented.not_inComment ?_ commented
      rw [here]
      exact fun same => (solid c member).2 (Option.some.inj same)

end Lexeme

/-- From the offset on, the text is divided into what is passed over and what the tokens are read from. -/
inductive Divides (source : List Char) : Nat → List Token → Prop
  | ends {offset : Nat} (inside : offset ≤ source.length) (passed : Passed source offset source.length) :
    Divides source offset []
  | token {offset : Nat} {l : Lexeme} {t : Token} {later : List Token} (order : offset ≤ t.span.start)
    (passed : Passed source offset t.span.start) (stands : l.StandsAt source t.span.start)
    (made : l.item? t.span.start = some (.ok t))
    (whole : ∀ c, source[t.span.stop]? = some c → t.kind.goesOnWith c = false)
    (uncommented : Uncommented source t.span.start ∨ l = .newline)
    (rest : Divides source t.span.stop later) : Divides source offset (t :: later)

/-- A lexeme that starts with a newline is nothing else. -/
theorem Lexeme.eq_newline {l : Lexeme} {c : Char} {cs rest : List Char} (valid : l.Valid)
    (spelled : c :: cs = l.chars ++ rest) (ended : c = '\n') : l = .newline := by
  apply Classical.byContradiction
  intro inner
  have absent := newline_not_mem_chars valid inner
  have long := length_pos valid
  cases chars : l.chars with
  | nil => simp [chars] at long
  | cons d ds =>
    rw [chars, List.cons_append, List.cons.injEq] at spelled
    rw [chars, ← spelled.1, ended] at absent
    exact absent List.mem_cons_self

open Token (Stream)

/-- A scan without fault divides the text. -/
theorem divides_of_scan {source : List Char} {offset : Nat} {cs : List Char} {tokens : List Token}
    (inside : offset ≤ source.length) (left : source.drop offset = cs)
    (uncommented : Uncommented source offset)
    (scanned : Stream.scan offset cs = ⟨tokens.map .ok, none⟩) : Divides source offset tokens := by
  -- a comment ends with its line, so none is open where the scan goes on behind a token
  fun_induction Stream.scan offset cs generalizing tokens with
  | case1 offset cs reached skipped =>
    have empty : tokens = [] := List.map_eq_nil_iff.mp (congrArg Stream.items scanned).symm
    have passed := (passed_of_skipBlank left uncommented).1
    have length := Token.skipBlank_keeps false offset cs
    rw [skipped] at passed length
    rw [← left, List.length_drop, List.length_nil, Nat.add_zero] at length
    rw [empty]
    refine .ends inside fun place c first last => passed place c first ?_
    omega
  | case2 => cases congrArg Stream.stuck scanned
  | case3 offset cs start c tail skipped item stop rest lexed ih =>
    obtain ⟨t, later, rfl, rfl, others⟩ := Stream.cons_eq_scanned scanned
    obtain ⟨passed, comment⟩ := passed_of_skipBlank left uncommented
    obtain ⟨order, here⟩ := drop_of_skipBlank left
    obtain ⟨l, valid, visible, made, spelled, stops⟩ := Token.exists_lexeme_of_lexeme? lexed
    have span := (Lexeme.token_of_item? made).1
    rw [skipped] at passed comment order here
    obtain rfl : start = t.span.start := by rw [span]
    obtain rfl : stop = t.span.stop := by rw [stops, span]
    have there : source.drop t.span.start = l.chars ++ rest := here.trans spelled
    have after : source.drop t.span.stop = rest := by
      rw [stops, ← List.drop_drop, there, List.drop_left]
    have stands : l.StandsAt source t.span.start := ⟨valid, visible, rest, there.symm⟩
    have comment : Uncommented source t.span.start ∨ l = .newline :=
      comment.imp_right fun newline => Lexeme.eq_newline valid spelled (newline c rfl)
    refine .token order passed stands made ?_ comment (ih (stops ▸ stands.stop_le) after ?_ others)
    · intro d next
      apply Token.stops_of_lexeme? lexed
      rw [← after, List.head?_drop]
      exact next
    · by_cases ended : l = .newline
      · have newline : source[t.span.start]? = some '\n' := by
          rw [← List.head?_drop, there, ended]
          rfl
        rw [stops, ended]
        exact uncommented_of_newline newline
      · refine (comment.resolve_right ended).within stands.spelled ?_ (by omega) (by omega)
        exact fun member => (Lexeme.solid_of_mem_chars valid visible ended _ member).2 rfl

namespace Divides

variable {source : List Char} {offset : Nat} {tokens : List Token}

theorem behind (divides : Divides source offset tokens) : ∀ t ∈ tokens, offset ≤ t.span.start := by
  induction divides with
  | ends => simp
  | token order _ _ made _ _ _ ih =>
    have stop := Lexeme.stop_of_item? made
    refine List.forall_mem_cons.mpr ⟨order, fun u member => ?_⟩
    have further := ih u member
    omega

theorem stands (divides : Divides source offset tokens) : ∀ t ∈ tokens, t.Stands source := by
  induction divides with
  | ends => simp
  | token _ _ stands made whole _ _ ih =>
    exact List.forall_mem_cons.mpr ⟨stands.stands made whole, ih⟩

theorem ordered (divides : Divides source offset tokens) :
    tokens.Pairwise fun s t => s.span.stop ≤ t.span.start := by
  induction divides with
  | ends => exact .nil
  | token _ _ _ _ _ _ rest ih => exact .cons rest.behind ih

/-- What lies outside of all tokens is just what is blank or in a comment. -/
theorem between (divides : Divides source offset tokens) {place : Nat} {c : Char}
    (further : offset ≤ place) (here : source[place]? = some c) :
    (∀ t ∈ tokens, place < t.span.start ∨ t.span.stop ≤ place) ↔
      c ≠ '\n' ∧ isBlank c ∨ InComment source place := by
  induction divides with
  | ends _ passed =>
    have inside := (List.getElem?_eq_some_iff.mp here).1
    exact iff_of_true (by simp) (passed place c further inside here)
  | @token offset l t later order passed stands made whole comment rest ih =>
    rw [List.forall_mem_cons]
    by_cases early : place < t.span.start
    · refine iff_of_true ⟨.inl early, fun u member => .inl ?_⟩ (passed place c further early here)
      have nonempty := (stands.stands made whole).nonempty
      have behind := rest.behind u member
      omega
    · by_cases inside : place < t.span.stop
      · refine iff_of_false (by omega) ?_
        rw [Lexeme.stop_of_item? made] at inside
        exact stands.visible_of_between comment (Nat.le_of_not_lt early) inside here
      · rw [← ih (Nat.le_of_not_lt inside)]
        exact and_iff_right (.inr (Nat.le_of_not_lt inside))

/-- Every newline makes a token of its own. -/
theorem newlines (divides : Divides source offset tokens) :
    newlinesBefore source source.length =
      newlinesBefore source offset + (tokens.map Token.kind).count .newline := by
  induction divides with
  | ends inside passed => exact passed.newlinesBefore inside
  | @token offset l t later order passed stands made whole comment rest ih =>
    obtain ⟨_, kind, _⟩ := Lexeme.token_of_item? made
    have ended := stands.newlinesBefore_stop
    rw [← Lexeme.stop_of_item? made, passed.newlinesBefore order] at ended
    rw [ih, ended, List.map_cons, List.count_cons]
    simp only [beq_iff_eq, kind]
    omega

end Divides

/-- The tokens are all that a text says. Each stands in a part of the text, the parts come one after the
other, and a character is in none of them just if it is a blank inside a line or belongs to a comment. -/
structure Tokenized (source : List Char) (tokens : List Token) : Prop where
  stands : ∀ t ∈ tokens, t.Stands source
  ordered : tokens.Pairwise fun s t => s.span.stop ≤ t.span.start
  between : ∀ place c, source[place]? = some c →
    ((∀ t ∈ tokens, place < t.span.start ∨ t.span.stop ≤ place) ↔
      c ≠ '\n' ∧ isBlank c ∨ InComment source place)
  newlines : (tokens.map Token.kind).count .newline = source.count '\n'

/-- Lexing loses nothing: the tokens that are taken until there is none are all that the text says. -/
theorem lexing_loses_nothing {source : List Char} {tokens : List Token}
    (lexed : Window.tokens source = .ok tokens) : Tokenized source tokens := by
  have divides : Divides source 0 tokens :=
    divides_of_scan (Nat.zero_le _) rfl uncommented_zero (Window.scan_of_tokens lexed)
  refine ⟨divides.stands, divides.ordered, fun place c here => divides.between (Nat.zero_le _) here, ?_⟩
  have counted := divides.newlines
  rw [newlinesBefore, List.take_length, newlinesBefore, List.take_zero, List.count_nil, Nat.zero_add]
    at counted
  exact counted.symm

/-- A comment right after a word, with what would be a fault in it, and a sign that belongs to a number. -/
theorem lexing_loses_nothing_of_comment :
    let source := ['x', ';', '$', '\n', '-', '7']
    let tokens : List Token := [⟨.word "x", 0, 1⟩, ⟨.newline, 3, 4⟩, ⟨.number (-7), 4, 6⟩]
    Window.tokens source = .ok tokens ∧ Tokenized source tokens := by
  intro source tokens
  have number : Stream.scan 4 ['-', '7'] = ⟨[.ok ⟨.number (-7), 4, 6⟩], none⟩ :=
    (Stream.scan_eq_cons rfl rfl).trans (congrArg _ Stream.scan_nil)
  have comment : Stream.scan 1 [';', '$', '\n', '-', '7'] =
      ⟨[.ok ⟨.newline, 3, 4⟩, .ok ⟨.number (-7), 4, 6⟩], none⟩ :=
    (Stream.scan_eq_cons rfl rfl).trans (congrArg _ number)
  have scanned : Stream.ofChars source = ⟨tokens.map .ok, none⟩ :=
    (Stream.scan_eq_cons rfl rfl).trans (congrArg _ comment)
  have lexed := Window.tokens_of_scan scanned
  exact ⟨lexed, lexing_loses_nothing lexed⟩

end CrossAsm
