import FuzzLang.Proofs.Compile.Culprit
import FuzzLang.Proofs.Grammar.Relocate
import FuzzLang.Proofs.Text.Lines

/-!
# Errors point into the source

Reading tokens gives each of them the place of its word. After that no step makes up a place: moving
the tokens moves every place of a result alike (`parse_relocate`), so a place that no token has
cannot come out (`mem_places_of_parse`, `mem_places_of_error`). So an error of compiling points at a
token, or at the text that could not be read as one, and its place is one of the source
(`compile_error_pointsAt`).
-/

namespace FuzzLang

namespace Token

/-! ## Words of a source -/

/-- The word stands in the source, and begins at the place. -/
def StandsAt (source word : List Char) (l : Location) : Prop :=
  ∃ before later, source = before ++ (word ++ later) ∧ l = .after before

/-- A word that does not begin with a blank begins at a place of the source. -/
theorem StandsAt.within {source word : List Char} {c : Char} {l : Location}
    (h : StandsAt source (c :: word) l) (hc : isBlank c = false) : l.Within source := by
  obtain ⟨before, later, rfl, rfl⟩ := h
  refine Location.within_after before (word ++ later) ?_ ?_
  · rintro rfl
    cases hc
  · rintro rfl
    cases hc

theorem Matches.within {source word : List Char} {kind : Kind} {l : Location}
    (hm : Matches (.token kind) word) (h : StandsAt source word l) : l.Within source := by
  obtain ⟨c, cs, rfl⟩ := List.exists_cons_of_ne_nil hm.ne_nil
  refine h.within ?_
  cases hc : isBlank c with
  | false => rfl
  | true => exact absurd (hm.eq_blank hc) nofun

theorem Uncovered.head_ne {c : Char} {cs : List Char} (h : Uncovered (c :: cs)) :
    isBlank c = false := by
  cases hc : isBlank c with
  | false => rfl
  | true =>
    have hblank : Matches .blank [c] := Matches.blank_iff.2 ⟨by simp, by simpa using hc⟩
    exact absurd ⟨cs, rfl⟩ (h _ _ hblank)

theorem Blames.cons {rest slice : List Char} (h : Blames rest slice) :
    ∃ c cs later, slice = c :: cs ∧ rest = slice ++ later := by
  cases h with
  | @character c cs hc => exact ⟨c, [], cs, rfl, rfl⟩
  | @quote line tail => exact ⟨_, line, tail, rfl, rfl⟩

/-- A token of a source: its word stands at its place. -/
structure Stands (source : List Char) (t : Token) (word : List Char) : Prop where
  spelled : Spelled ⟨.token t.kind, word⟩ t
  matched : Matches (.token t.kind) word
  standsAt : StandsAt source word t.location

theorem Spelled.pattern_eq {piece : Piece} {t : Token} (h : Spelled piece t) :
    piece.pattern = .token t.kind := by
  cases h <;> rfl

theorem Yields.exists_piece {before : List Char} {pieces : List Piece} {ts : List Token}
    (h : Yields before pieces ts) {t : Token} (ht : t ∈ ts) :
    ∃ passed piece later, pieces = passed ++ piece :: later ∧ Spelled piece t ∧
      t.location = .after (before ++ passed.flatMap (·.text)) := by
  induction h with
  | nil => cases ht
  | @skip before piece _ _ _ _ ih =>
    obtain ⟨passed, own, later, rfl, hs, hl⟩ := ih ht
    refine ⟨piece :: passed, own, later, rfl, hs, ?_⟩
    rw [hl, List.flatMap_cons, List.append_assoc]
  | @token before piece pieces _ _ hs hl _ ih =>
    rcases List.mem_cons.1 ht with rfl | ht
    · refine ⟨[], piece, pieces, rfl, hs, ?_⟩
      rw [hl, List.flatMap_nil, List.append_nil]
    · obtain ⟨passed, own, later, rfl, hs', hl'⟩ := ih ht
      refine ⟨piece :: passed, own, later, rfl, hs', ?_⟩
      rw [hl', List.flatMap_cons, List.append_assoc]

theorem standsAt_of_munch {source rest : List Char} {passed later : List Piece} {piece : Piece}
    (h : Munch source (passed ++ piece :: later) rest) :
    StandsAt source piece.text (.after (passed.flatMap (·.text))) := by
  refine ⟨_, later.flatMap (·.text) ++ rest, ?_, rfl⟩
  rw [← h.flatMap_text, List.flatMap_append, List.flatMap_cons, List.append_assoc,
    List.append_assoc]

/-- Every token of a source stands in it. -/
theorem exists_stands {source : String} {ts : List Token} (h : tokenize source = .ok ts) {t : Token}
    (ht : t ∈ ts) : ∃ word, t.Stands source.toList word := by
  have hmunch := munch_cut source.toList
  obtain ⟨passed, ⟨pattern, word⟩, later, hpieces, hs, hl⟩ :=
    (yields_of_tokenize h).exists_piece ht
  obtain rfl : pattern = .token t.kind := hs.pattern_eq
  rw [hpieces] at hmunch
  have hmatch := hmunch.matches_of_mem _ (List.mem_append_right _ List.mem_cons_self)
  have hstands := standsAt_of_munch hmunch
  rw [List.nil_append] at hl
  rw [← hl] at hstands
  exact ⟨word, hs, hmatch, hstands⟩

/-- A fault of a source and its text: an integer that does not fit, or where no pattern covers the
rest, a character or a string that its line does not end. -/
inductive Error.PointsAt (source : List Char) : Error → Prop
  | unexpected {before rest slice : List Char} :
    source = before ++ rest → Uncovered rest → Blames rest slice →
    PointsAt source ⟨.unexpected (String.ofList slice), .after before⟩
  | outOfRange {word : List Char} {l : Location} :
    Matches (.token .number) word → ¬ Piece.Fits ⟨.token .number, word⟩ → StandsAt source word l →
    PointsAt source ⟨.outOfRange (String.ofList word), l⟩

theorem Error.PointsAt.within {source : List Char} {e : Error} (h : e.PointsAt source) :
    e.location.Within source := by
  cases h with
  | @unexpected before rest slice hsource hu hb =>
    obtain ⟨c, cs, later, rfl, rfl⟩ := hb.cons
    have hstands : StandsAt source (c :: cs) (.after before) := ⟨before, later, hsource, rfl⟩
    exact hstands.within hu.head_ne
  | outOfRange hm _ hs => exact hm.within hs

theorem pointsAt_of_tokenize {source : String} {e : Error} (h : tokenize source = .error e) :
    e.PointsAt source.toList := by
  have hmunch := munch_cut source.toList
  rw [tokenize_eq_readFrom] at h
  rcases readPieces_eq_error hmunch.matches_of_mem h with
    ⟨passed, ⟨pattern, word⟩, later, hpieces, -, hfits, rfl⟩ | ⟨hne, -, rfl⟩
  · rw [hpieces] at hmunch
    -- only numbers can fail to fit
    obtain rfl : pattern = .token .number := by
      by_contra hnumber
      exact hfits fun hp => absurd hp hnumber
    have hmatch := hmunch.matches_of_mem _ (List.mem_append_right _ List.mem_cons_self)
    exact .outOfRange hmatch hfits (standsAt_of_munch hmunch)
  · exact .unexpected hmunch.flatMap_text.symm hmunch.uncovered
      (blames_offending hmunch.uncovered hne)

end Token

/-! ## Places that come out of a program -/

namespace Grammar

/-- Move every place that no token has. -/
def astray (ts : List Token) (l : Location) : Location :=
  if l ∈ ts.map (·.location) then l else l.lower 1

variable {ts : List Token}

theorem map_relocate_astray : ts.map (Token.relocate (astray ts)) = ts := by
  conv_rhs => rw [← List.map_id ts]
  refine List.map_congr_left fun t ht => ?_
  have hmem : t.location ∈ ts.map (·.location) := List.mem_map_of_mem ht
  rw [Token.relocate, astray, if_pos hmem]
  rfl

theorem mem_of_astray_eq {l : Location} (h : astray ts l = l) : l ∈ ts.map (·.location) := by
  by_contra hno
  rw [astray, if_neg hno] at h
  have hline : l.line + 1 = l.line := congrArg Location.line h
  omega

/-- Every statement begins at a token. -/
theorem mem_places_of_parse {entries : List Entry} (h : parse ts = .ok entries) :
    ∀ e ∈ entries, e.location ∈ ts.map (·.location) := by
  have hmoved := parse_relocate (astray ts) ts
  rw [map_relocate_astray, h] at hmoved
  intro e he
  have hfixed : ∀ e ∈ entries, Entry.moved (astray ts) 0 e = e := by
    refine List.map_inj_left.1 ?_
    rw [List.map_id']
    exact (Except.ok.inj hmoved).symm
  exact mem_of_astray_eq (congrArg Entry.location (hfixed e he))

/-- Every fault is found at a token. -/
theorem mem_places_of_error {e : Error} (h : parse ts = .error e) :
    e.location ∈ ts.map (·.location) := by
  have hmoved := parse_relocate (astray ts) ts
  rw [map_relocate_astray, h] at hmoved
  exact mem_of_astray_eq (congrArg Error.location (Except.error.inj hmoved)).symm

theorem location_of_ended {e : Error} (h : parse ts = .error e)
    (hk : e.fault.kind = .unexpectedEnd) : e.location = endLocation ts := by
  unfold parse at h
  simp only at h
  split at h
  · cases h
  · rename_i fault hfault
    cases h
    cases fault with
    | ended slot => rfl
    | wrong slot found => cases slot <;> cases hk
    | _ => cases hk

/-- The token that a fault is found at: where the tokens end too soon, the last. -/
theorem exists_token_of_error {e : Error} (h : parse ts = .error e) :
    ∃ t ∈ ts, e.location = t.location ∧
      (e.fault.kind = .unexpectedEnd → ts.getLast? = some t) := by
  obtain ⟨t, ht, hl⟩ := List.mem_map.1 (mem_places_of_error h)
  by_cases hk : e.fault.kind = .unexpectedEnd
  · have hne : ts ≠ [] := List.ne_nil_of_mem ht
    have hlast : ts.getLast? = some (ts.getLast hne) := List.getLast?_eq_some_getLast hne
    refine ⟨ts.getLast hne, List.getLast_mem hne, ?_, fun _ => hlast⟩
    rw [location_of_ended h hk, endLocation, hlast]
    rfl
  · exact ⟨t, ht, hl.symm, fun h => absurd h hk⟩

end Grammar

/-! ## Compiling -/

namespace Compilation

/-- Where an error of compiling a source points: a text that cannot be read, or a token. -/
inductive Error.PointsAt (source : String) : Error → Prop
  | lex {e : Token.Error} : e.PointsAt source.toList → PointsAt source (.lex e)
  | parse {e : Grammar.Error} {ts : List Token} {t : Token} {word : List Char} :
    Token.tokenize source = .ok ts → t ∈ ts → t.Stands source.toList word →
    e.location = t.location → (e.fault.kind = .unexpectedEnd → ts.getLast? = some t) →
    PointsAt source (.parse e)
  | generate {e : GenerateError} {ts : List Token} {t : Token} {word : List Char} :
    Token.tokenize source = .ok ts → t ∈ ts → t.Stands source.toList word →
    e.location = t.location → PointsAt source (.generate e)

theorem Error.PointsAt.within {source : String} {e : Error} (h : e.PointsAt source) :
    e.location.Within source.toList := by
  cases h with
  | lex he => exact he.within
  | parse _ _ hs hl _ =>
    rw [location, hl]
    exact hs.matched.within hs.standsAt
  | generate _ _ hs hl =>
    rw [location, hl]
    exact hs.matched.within hs.standsAt

theorem pointsAt_of_compile {indent source : String} {e : Error}
    (h : compile indent source = .error e) : e.PointsAt source := by
  unfold compile read at h
  cases ht : Token.tokenize source with
  | error fault =>
    simp only [ht] at h
    cases h
    exact .lex (Token.pointsAt_of_tokenize ht)
  | ok ts =>
    cases hp : Grammar.parse ts with
    | error fault =>
      simp only [ht, hp] at h
      cases h
      obtain ⟨t, hmem, hl, hlast⟩ := Grammar.exists_token_of_error hp
      obtain ⟨word, hstands⟩ := Token.exists_stands ht hmem
      exact .parse ht hmem hstands hl hlast
    | ok entries =>
      simp only [ht, hp] at h
      cases hg : generate indent entries with
      | ok text =>
        rw [hg] at h
        cases h
      | error fault =>
        rw [hg] at h
        cases h
        obtain ⟨entry, hentry, habout⟩ := generate_eq_error hg
        obtain ⟨t, hmem, hl⟩ := List.mem_map.1 (Grammar.mem_places_of_parse hp entry hentry)
        obtain ⟨word, hstands⟩ := Token.exists_stands ht hmem
        exact .generate ht hmem hstands (habout.location_eq.trans hl.symm)

/-- Every statement of a compiled source begins at a place of it. -/
theorem within_of_compile {indent source : String} {c : Compilation}
    (h : compile indent source = .ok c) : ∀ e ∈ c.entries, e.location.Within source.toList := by
  obtain ⟨ht, hp, -⟩ := compile_eq_ok h
  intro e he
  obtain ⟨t, hmem, hl⟩ := List.mem_map.1 (Grammar.mem_places_of_parse hp e he)
  obtain ⟨word, hstands⟩ := Token.exists_stands ht hmem
  rw [← hl]
  exact hstands.matched.within hstands.standsAt

end Compilation

open Compilation

/-- **Errors point into the source.** If a source does not compile, the error is at a line of it and
at a byte of that line. There a token begins, the last one if the program ends too soon, or the
character, the string or the number that cannot be read. -/
theorem compile_error_pointsAt {indent source : String} {e : Compilation.Error}
    (h : compile indent source = .error e) :
    e.location.Within source.toList ∧ e.PointsAt source := by
  have hpoints := pointsAt_of_compile h
  exact ⟨hpoints.within, hpoints⟩

/-- A string with a character of two bytes, and then a quote that nothing closes. The lines end in a
carriage return and a line feed. -/
def unclosedQuote : String := "labs(1)\r\n\"é\" \"é\r\n"

/-- The quote is at byte 6 of line 2, which has 8. -/
theorem compile_error_pointsAt_unclosedQuote :
    compile "" unclosedQuote = .error (.lex ⟨.unexpected "\"é\r", ⟨2, 6⟩⟩) ∧
    Location.Within ⟨2, 6⟩ unclosedQuote.toList ∧
    Error.PointsAt unclosedQuote (.lex ⟨.unexpected "\"é\r", ⟨2, 6⟩⟩) := by
  have h : compile "" unclosedQuote = .error (.lex ⟨.unexpected "\"é\r", ⟨2, 6⟩⟩) := by
    decide +kernel
  exact ⟨h, compile_error_pointsAt h⟩

end FuzzLang
