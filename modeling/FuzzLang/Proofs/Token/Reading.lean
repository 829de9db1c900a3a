import FuzzLang.Proofs.Location
import FuzzLang.Proofs.Token.Munch

/-!
# Reading tokens as they come

`readFrom before cs` reads the tokens of `cs` where the text `before` precedes it. It needs no table
of lines, and what it does with a text follows from the first piece alone (`readFrom_token` and the
lemmas next to it). A source is read in this way (`tokenize_eq_readFrom`).

The tokens of a source, or its first fault, are then told from the pieces it is cut into
(`tokenize_munch`).
-/

attribute [local instance (high)] instPowNat

namespace FuzzLang.Token

/-- The tokens of pieces after the text `before`; no pattern covers the rest. -/
def readPieces (before : List Char) : List Piece → List Char → Except Error (List Token)
  | [], rest =>
    if rest.isEmpty then .ok []
    else .error ⟨.unexpected (String.ofList (offending rest)), .after before⟩
  | piece :: pieces, rest =>
    match piece.pattern with
    | .blank | .comment => readPieces (before ++ piece.text) pieces rest
    | .token kind =>
      match Piece.lexeme? kind piece.text with
      | .error fault => .error ⟨fault, .after before⟩
      | .ok lexeme =>
        (readPieces (before ++ piece.text) pieces rest).map (⟨kind, lexeme, .after before⟩ :: ·)

/-- The tokens of a text after the text `before`. -/
def readFrom (before cs : List Char) : Except Error (List Token) :=
  readPieces before (cut cs).1 (cut cs).2

/-! ## One piece at a time -/

theorem readFrom_nil (before : List Char) : readFrom before [] = .ok [] := by
  rw [readFrom, cut_of_none Pattern.longest_nil]
  rfl

theorem readFrom_uncovered (before : List Char) {c : Char} {cs : List Char}
    (h : Uncovered (c :: cs)) :
    readFrom before (c :: cs) =
      .error ⟨.unexpected (String.ofList (offending (c :: cs))), .after before⟩ := by
  rw [readFrom, cut_of_none (Pattern.longest_eq_none_iff.2 h)]
  rfl

theorem readFrom_skip (before : List Char) {p : Pattern} {cs rest : List Char}
    (h : Longest p cs rest) (hp : p = .blank ∨ p = .comment) :
    readFrom before (cs ++ rest) = readFrom (before ++ cs) rest := by
  rw [readFrom, cut_of_longest h]
  rcases hp with rfl | rfl <;> rfl

theorem readFrom_token (before : List Char) {kind : Kind} {cs rest : List Char}
    (h : Longest (.token kind) cs rest) :
    readFrom before (cs ++ rest) =
      match Piece.lexeme? kind cs with
      | .error fault => .error ⟨fault, .after before⟩
      | .ok lexeme =>
        (readFrom (before ++ cs) rest).map (⟨kind, lexeme, .after before⟩ :: ·) := by
  rw [readFrom, cut_of_longest h]
  rfl

/-! ## A source is read piece by piece -/

/-- What the table says of pieces inside a source is what the text before them says. -/
theorem readPieces_eq (before : List Char) (pieces : List Piece) (rest : List Char) :
    readPieces before pieces rest =
      match ofPieces (.ofSource (before ++ (pieces.flatMap (·.text) ++ rest))) (utf8Length before)
          pieces with
      | .error e => .error e
      | .ok tokens =>
        if rest.isEmpty then .ok tokens
        else .error ⟨.unexpected (String.ofList (offending rest)),
          .after (before ++ pieces.flatMap (·.text))⟩ := by
  induction pieces generalizing before with
  | nil => simp [readPieces, ofPieces]
  | cons piece pieces ih =>
    have hlocate := LineTable.locate_utf8Length before
      ((piece :: pieces).flatMap (·.text) ++ rest)
    have hih := ih (before ++ piece.text)
    simp only [List.flatMap_cons, List.append_assoc, utf8Length_append] at hlocate hih ⊢
    simp only [readPieces, ofPieces, hlocate]
    cases piece.pattern with
    | blank | comment => exact hih
    | token kind =>
      cases hlex : Piece.lexeme? kind piece.text with
      | error fault => simp only [hlex]
      | ok lexeme =>
        simp only [hlex, hih]
        cases ofPieces _ (utf8Length before + utf8Length piece.text) pieces with
        | error e => rfl
        | ok tokens =>
          simp only
          split <;> rfl

theorem scan_eq_readFrom (cs : List Char) : scan cs = readFrom [] cs := by
  have htext := (munch_cut cs).flatMap_text
  have hplace := LineTable.locate_utf8Length ((cut cs).1.flatMap (·.text)) (cut cs).2
  rw [htext] at hplace
  rw [readFrom, readPieces_eq, scan]
  cases hpieces : ofPieces (LineTable.ofSource cs) 0 (cut cs).1 <;>
    simp only [List.nil_append, htext, hplace, utf8Length_nil, hpieces]

theorem tokenize_eq_readFrom (source : String) : tokenize source = readFrom [] source.toList :=
  scan_eq_readFrom source.toList

/-! ## What literals denote -/

/-- The number that digits spell: each digit counts as often as its place says. -/
def placeValue : List Char → Nat
  | [] => 0
  | d :: ds => (d.toNat - '0'.toNat) * 10 ^ ds.length + placeValue ds

/-- The integer that a literal without a point denotes. -/
def denoted : List Char → Int
  | '-' :: ds => -(placeValue ds : Int)
  | '+' :: ds => placeValue ds
  | ds => placeValue ds

theorem foldl_eq_placeValue (ds : List Char) (n : Nat) :
    ds.foldl (fun n c => 10 * n + (c.toNat - '0'.toNat)) n =
      n * 10 ^ ds.length + placeValue ds := by
  induction ds generalizing n with
  | nil => simp [placeValue]
  | cons d ds ih =>
    rw [List.foldl_cons, ih, placeValue, List.length_cons, Nat.pow_succ, Nat.add_mul, Nat.add_assoc]
    congr 1
    rw [Nat.mul_comm 10 n, Nat.mul_assoc, Nat.mul_comm 10]

theorem digitsValue_eq_placeValue (ds : List Char) : digitsValue ds = placeValue ds := by
  rw [digitsValue, foldl_eq_placeValue, Nat.zero_mul, Nat.zero_add]

theorem splitSign_append {sign cs : List Char} {c : Char} (hs : IsSign sign)
    (hc : c.isDigit = true ∨ c = '.') :
    Number.splitSign (sign ++ c :: cs) = (decide (sign = ['-']), c :: cs) := by
  rcases hs with rfl | rfl | rfl
  · rw [List.nil_append]
    unfold Number.splitSign
    split
    · rename_i h
      cases h
      rcases hc with hc | hc <;> cases hc
    · rename_i h
      cases h
      rcases hc with hc | hc <;> cases hc
    · rfl
  · rfl
  · rfl

theorem denoted_append {sign ds : List Char} (hs : IsSign sign) (hd : IsDigits ds) :
    denoted (sign ++ ds) = if sign = ['-'] then -(placeValue ds : Int) else placeValue ds := by
  rcases hs with rfl | rfl | rfl
  · obtain ⟨c, ds, rfl⟩ := List.exists_cons_of_ne_nil hd.1
    have hc := hd.2 c List.mem_cons_self
    rw [List.nil_append, if_neg nofun]
    unfold denoted
    split
    · rename_i h
      cases h
      cases hc
    · rename_i h
      cases h
      cases hc
    · rfl
  · rfl
  · rfl

theorem ofLiteral?_integer {sign ds : List Char} (hs : IsSign sign) (hd : IsDigits ds) :
    Number.ofLiteral? (sign ++ ds) = Number.ofInt? (denoted (sign ++ ds)) := by
  have hwhole : ds.takeWhile Char.isDigit = ds := by
    rw [← List.append_nil ds, List.takeWhile_append_of_pos hd.2, List.takeWhile_nil]
  have hrest : ds.dropWhile Char.isDigit = [] := by
    rw [← List.append_nil ds, List.dropWhile_append_of_pos hd.2, List.dropWhile_nil]
  obtain ⟨c, ds', rfl⟩ := List.exists_cons_of_ne_nil hd.1
  have hc := hd.2 c List.mem_cons_self
  simp only [Number.ofLiteral?, splitSign_append hs (.inl hc), hwhole, hrest, denoted_append hs hd,
    digitsValue_eq_placeValue, decide_eq_true_eq]

theorem ofLiteral?_decimal {sign whole ds : List Char} (hs : IsSign sign)
    (hw : ∀ c ∈ whole, c.isDigit = true) :
    Number.ofLiteral? (sign ++ (whole ++ '.' :: ds)) =
      some (.float ((Decimal.ofPlaces whole ds).toDouble (sign = ['-']))) := by
  have hsplit : Number.splitSign (sign ++ (whole ++ '.' :: ds)) =
      (decide (sign = ['-']), whole ++ '.' :: ds) := by
    cases whole with
    | nil => exact splitSign_append hs (.inr rfl)
    | cons c whole => exact splitSign_append hs (.inl (hw c List.mem_cons_self))
  have hwhole : (whole ++ '.' :: ds).takeWhile Char.isDigit = whole := by
    rw [List.takeWhile_append_of_pos hw, List.takeWhile_cons_of_neg (by decide), List.append_nil]
  have hrest : (whole ++ '.' :: ds).dropWhile Char.isDigit = '.' :: ds := by
    rw [List.dropWhile_append_of_pos hw, List.dropWhile_cons_of_neg (by decide)]
  simp only [Number.ofLiteral?, hsplit, hwhole, hrest]

/-- Whether a piece, if it is an integer, fits 64 bits with a sign. -/
def Piece.Fits (piece : Piece) : Prop :=
  piece.pattern = .token .number → '.' ∉ piece.text →
    -2 ^ (63 : Nat) ≤ denoted piece.text ∧ denoted piece.text ≤ 2 ^ (63 : Nat) - 1

/-- A token that a piece stands for: a number with a point is the nearest double, any other number
the integer it denotes, and anything else is kept as it is spelled. -/
inductive Spelled : Piece → Token → Prop
  | text {kind : Kind} {cs : List Char} {location : Location} :
    kind ≠ .number → Spelled ⟨.token kind, cs⟩ ⟨kind, .text (String.ofList cs), location⟩
  | integer {cs : List Char} {location : Location} :
    '.' ∉ cs → Spelled ⟨.token .number, cs⟩ ⟨.number, .number (.int (denoted cs)), location⟩
  | decimal {sign whole ds : List Char} {location : Location} :
    IsSign sign → (∀ c ∈ whole, c.isDigit = true) → IsDigits ds →
    Spelled ⟨.token .number, sign ++ (whole ++ '.' :: ds)⟩
      ⟨.number, .number (.float ((Decimal.ofPlaces whole ds).toDouble (sign = ['-']))), location⟩

theorem not_mem_of_isDigits {sign ds : List Char} (hs : IsSign sign) (hd : IsDigits ds) :
    '.' ∉ sign ++ ds := by
  intro h
  rcases List.mem_append.1 h with h | h
  · rcases hs with rfl | rfl | rfl <;> exact absurd h (by decide)
  · exact absurd (hd.2 _ h) (by decide)

/-- A piece of a kind has a lexeme just if it fits. -/
theorem lexeme?_cases {kind : Kind} {cs : List Char} (h : Matches (.token kind) cs) :
    (Piece.Fits ⟨.token kind, cs⟩ ∧ ∃ lexeme, Piece.lexeme? kind cs = .ok lexeme ∧
        ∀ location, Spelled ⟨.token kind, cs⟩ ⟨kind, lexeme, location⟩) ∨
      (¬ Piece.Fits ⟨.token kind, cs⟩ ∧
        Piece.lexeme? kind cs = .error (.outOfRange (String.ofList cs))) := by
  by_cases hk : kind = .number
  · subst hk
    cases h with
    | word hs => cases hs
    | @integer sign ds hs hd =>
      have hpoint := not_mem_of_isDigits hs hd
      by_cases hrange : -2 ^ (63 : Nat) ≤ denoted (sign ++ ds) ∧
          denoted (sign ++ ds) < 2 ^ (63 : Nat)
      · refine .inl ⟨fun _ _ => ⟨hrange.1, Int.le_sub_one_of_lt hrange.2⟩, _, ?_,
          fun _ => .integer hpoint⟩
        simp only [Piece.lexeme?, ofLiteral?_integer hs hd, Number.ofInt?, if_pos hrange]
      · refine .inr ⟨fun hfits => hrange ?_, ?_⟩
        · obtain ⟨hlow, hhigh⟩ := hfits rfl hpoint
          exact ⟨hlow, Int.lt_of_le_sub_one hhigh⟩
        · simp only [Piece.lexeme?, ofLiteral?_integer hs hd, Number.ofInt?, if_neg hrange]
    | decimal hs hw hd =>
      simp only [Piece.lexeme?, ofLiteral?_decimal hs hw]
      exact .inl ⟨fun _ hpoint => absurd (by simp) hpoint, _, rfl, fun _ => .decimal hs hw hd⟩
  · refine .inl ⟨fun hn => absurd (Pattern.token.inj hn) hk, .text (String.ofList cs), ?_,
      fun _ => .text hk⟩
    cases kind with
    | number => exact absurd rfl hk
    | _ => rfl

/-! ## Tokens and faults of a source -/

/-- The tokens of pieces that follow the text `before`: one for each piece that is neither blank nor
a comment, placed where the piece begins. -/
inductive Yields : List Char → List Piece → List Token → Prop
  | nil {before : List Char} : Yields before [] []
  | skip {before : List Char} {piece : Piece} {pieces : List Piece} {ts : List Token} :
    piece.pattern = .blank ∨ piece.pattern = .comment →
    Yields (before ++ piece.text) pieces ts → Yields before (piece :: pieces) ts
  | token {before : List Char} {piece : Piece} {pieces : List Piece} {t : Token}
      {ts : List Token} :
    Spelled piece t → t.location = .after before →
    Yields (before ++ piece.text) pieces ts → Yields before (piece :: pieces) (t :: ts)

theorem Yields.exists_spelled {before : List Char} {pieces : List Piece} {ts : List Token}
    (h : Yields before pieces ts) {t : Token} (ht : t ∈ ts) :
    ∃ piece ∈ pieces, Spelled piece t := by
  induction h with
  | nil => cases ht
  | skip _ _ ih =>
    obtain ⟨piece, hp, hs⟩ := ih ht
    exact ⟨piece, List.mem_cons_of_mem _ hp, hs⟩
  | token hs _ _ ih =>
    rcases List.mem_cons.1 ht with rfl | ht
    · exact ⟨_, List.mem_cons_self, hs⟩
    · obtain ⟨piece, hp, hs'⟩ := ih ht
      exact ⟨piece, List.mem_cons_of_mem _ hp, hs'⟩

/-- The text to blame where nothing covers the rest of a source: one character, or a string that its
line does not end. -/
inductive Blames : List Char → List Char → Prop
  | character {c : Char} {cs : List Char} : c ≠ '"' → Blames (c :: cs) [c]
  | quote {line tail : List Char} :
    '"' ∉ line → '\n' ∉ line → (∀ c ∈ tail.head?, c = '\n') →
    Blames ('"' :: (line ++ tail)) ('"' :: line)

theorem Piece.fits_of_skip {piece : Piece}
    (h : piece.pattern = .blank ∨ piece.pattern = .comment) : piece.Fits := by
  intro hn
  rcases h with h | h <;> exact absurd (h.symm.trans hn) nofun

theorem offending_of_ne {c : Char} (hc : c ≠ '"') (cs : List Char) : offending (c :: cs) = [c] := by
  unfold offending
  split
  · rename_i h
    cases h
    exact absurd rfl hc
  · rfl

theorem blames_offending {rest : List Char} (hu : Uncovered rest) (hne : rest ≠ []) :
    Blames rest (offending rest) := by
  obtain ⟨c, cs, rfl⟩ := List.exists_cons_of_ne_nil hne
  by_cases hc : c = '"'
  · subst hc
    have hline : ∀ d ∈ cs.takeWhile (· != '\n'), d ≠ '\n' := fun d hd =>
      bne_iff_ne.1 (List.all_eq_true.1 List.all_takeWhile d hd)
    have hsplit : cs.takeWhile (· != '\n') ++ cs.dropWhile (· != '\n') = cs :=
      List.takeWhile_append_dropWhile
    have hquote : '"' ∉ cs.takeWhile (· != '\n') := by
      intro hmem
      -- up to its first quote the line would be a string literal
      obtain ⟨body, more, hbody, hfirst⟩ := List.eq_append_cons_of_mem hmem
      have hstring : Matches (.token .string) ('"' :: (body ++ ['"'])) := .string fun d hd =>
        ⟨fun he => hfirst (he ▸ hd), hline d (hbody ▸ List.mem_append_left _ hd)⟩
      refine hu _ _ hstring ⟨more ++ cs.dropWhile (· != '\n'), ?_⟩
      rw [hbody] at hsplit
      simpa using hsplit
    have hblames : Blames ('"' :: (cs.takeWhile (· != '\n') ++ cs.dropWhile (· != '\n')))
        ('"' :: cs.takeWhile (· != '\n')) := by
      refine .quote hquote (fun hn => hline _ hn rfl) fun d hd => ?_
      have hhead := List.head?_dropWhile_not (· != '\n') cs
      rw [Option.mem_def.1 hd] at hhead
      simpa using hhead
    rwa [hsplit] at hblames
  · rw [offending_of_ne hc]
    exact .character hc

section

variable {pieces : List Piece} {before rest : List Char}

theorem readPieces_eq_ok (hm : ∀ piece ∈ pieces, Matches piece.pattern piece.text)
    {ts : List Token} (h : readPieces before pieces rest = .ok ts) :
    rest = [] ∧ (∀ piece ∈ pieces, piece.Fits) ∧ Yields before pieces ts := by
  induction pieces generalizing before ts with
  | nil =>
    rw [readPieces] at h
    split at h
    · rename_i hempty
      cases h
      exact ⟨List.isEmpty_iff.1 hempty, by simp, .nil⟩
    · cases h
  | cons piece pieces ih =>
    obtain ⟨hpiece, hlist⟩ := List.forall_mem_cons.1 hm
    have hskip (hp : piece.pattern = .blank ∨ piece.pattern = .comment)
        (h : readPieces (before ++ piece.text) pieces rest = .ok ts) :
        rest = [] ∧ (∀ p ∈ piece :: pieces, p.Fits) ∧ Yields before (piece :: pieces) ts := by
      obtain ⟨hrest, hfits, hyields⟩ := ih hlist h
      exact ⟨hrest, List.forall_mem_cons.2 ⟨Piece.fits_of_skip hp, hfits⟩, .skip hp hyields⟩
    obtain ⟨p, cs⟩ := piece
    cases p with
    | blank => exact hskip (.inl rfl) h
    | comment => exact hskip (.inr rfl) h
    | token kind =>
      rcases lexeme?_cases hpiece with ⟨hfits, lexeme, hlex, hspelled⟩ | ⟨_, hlex⟩
      · simp only [readPieces, hlex] at h
        cases hlater : readPieces (before ++ cs) pieces rest with
        | error e =>
          rw [hlater] at h
          cases h
        | ok tokens =>
          rw [hlater] at h
          cases h
          obtain ⟨hrest, hall, hyields⟩ := ih hlist hlater
          exact ⟨hrest, List.forall_mem_cons.2 ⟨hfits, hall⟩, .token (hspelled _) rfl hyields⟩
      · simp only [readPieces, hlex] at h
        cases h

theorem yields_of_tokenize {source : String} {ts : List Token} (h : tokenize source = .ok ts) :
    Yields [] (cut source.toList).1 ts := by
  rw [tokenize_eq_readFrom] at h
  exact (readPieces_eq_ok (munch_cut source.toList).matches_of_mem h).2.2

/-- A fault is that of the first piece that does not fit, or else of the rest. -/
theorem readPieces_eq_error (hm : ∀ piece ∈ pieces, Matches piece.pattern piece.text) {e : Error}
    (h : readPieces before pieces rest = .error e) :
    (∃ passed piece later, pieces = passed ++ piece :: later ∧ (∀ p ∈ passed, p.Fits) ∧
        ¬ piece.Fits ∧ e = ⟨.outOfRange (String.ofList piece.text),
          .after (before ++ passed.flatMap (·.text))⟩) ∨
      (rest ≠ [] ∧ (∀ piece ∈ pieces, piece.Fits) ∧
        e = ⟨.unexpected (String.ofList (offending rest)),
          .after (before ++ pieces.flatMap (·.text))⟩) := by
  induction pieces generalizing before with
  | nil =>
    rw [readPieces] at h
    split at h
    · cases h
    · rename_i hempty
      cases h
      exact .inr ⟨fun hn => hempty (List.isEmpty_iff.2 hn), by simp, by simp⟩
  | cons piece pieces ih =>
    obtain ⟨hpiece, hlist⟩ := List.forall_mem_cons.1 hm
    have hlater (hfits : piece.Fits)
        (h : readPieces (before ++ piece.text) pieces rest = .error e) :
        (∃ passed own later, piece :: pieces = passed ++ own :: later ∧ (∀ p ∈ passed, p.Fits) ∧
            ¬ own.Fits ∧ e = ⟨.outOfRange (String.ofList own.text),
              .after (before ++ passed.flatMap (·.text))⟩) ∨
          (rest ≠ [] ∧ (∀ p ∈ piece :: pieces, p.Fits) ∧
            e = ⟨.unexpected (String.ofList (offending rest)),
              .after (before ++ (piece :: pieces).flatMap (·.text))⟩) := by
      rcases ih hlist h with ⟨passed, own, later, rfl, hpassed, hown, rfl⟩ | ⟨hrest, hall, rfl⟩
      · refine .inl ⟨piece :: passed, own, later, rfl, List.forall_mem_cons.2 ⟨hfits, hpassed⟩,
          hown, ?_⟩
        rw [List.flatMap_cons, List.append_assoc]
      · refine .inr ⟨hrest, List.forall_mem_cons.2 ⟨hfits, hall⟩, ?_⟩
        rw [List.flatMap_cons, List.append_assoc]
    obtain ⟨p, cs⟩ := piece
    cases p with
    | blank => exact hlater (Piece.fits_of_skip (.inl rfl)) h
    | comment => exact hlater (Piece.fits_of_skip (.inr rfl)) h
    | token kind =>
      rcases lexeme?_cases hpiece with ⟨hfits, lexeme, hlex, _⟩ | ⟨hfits, hlex⟩
      · simp only [readPieces, hlex] at h
        cases hread : readPieces (before ++ cs) pieces rest with
        | error e' =>
          rw [hread] at h
          cases h
          exact hlater hfits hread
        | ok tokens =>
          rw [hread] at h
          cases h
      · simp only [readPieces, hlex] at h
        cases h
        exact .inl ⟨[], _, pieces, rfl, by simp, hfits, by simp⟩

end

/-- **Maximal munch.** A source is cut into pieces in one way, by taking the longest word of any
pattern again and again. It has tokens just if nothing is left and every integer fits. Then the
pieces are the whole source, and the tokens are those of its pieces in order. If not, the fault is
that of the first integer that does not fit, or else of the text where no pattern goes on. -/
theorem tokenize_munch (source : String) :
    ∃ pieces rest, Munch source.toList pieces rest ∧
      (∀ others more, Munch source.toList others more → others = pieces ∧ more = rest) ∧
      ((∃ ts, tokenize source = .ok ts) ↔ rest = [] ∧ ∀ piece ∈ pieces, piece.Fits) ∧
      (∀ ts, tokenize source = .ok ts →
        pieces.flatMap (·.text) = source.toList ∧ Yields [] pieces ts) ∧
      ∀ e, tokenize source = .error e →
        (∃ passed piece later, pieces = passed ++ piece :: later ∧ (∀ p ∈ passed, p.Fits) ∧
          ¬ piece.Fits ∧ e = ⟨.outOfRange (String.ofList piece.text),
            .after (passed.flatMap (·.text))⟩) ∨
        ((∀ piece ∈ pieces, piece.Fits) ∧ ∃ slice, Blames rest slice ∧
          e = ⟨.unexpected (String.ofList slice), .after (pieces.flatMap (·.text))⟩) := by
  have hmunch := munch_cut source.toList
  have hmatches := hmunch.matches_of_mem
  have hread : tokenize source =
      readPieces [] (cut source.toList).1 (cut source.toList).2 := tokenize_eq_readFrom source
  refine ⟨_, _, hmunch, ?_, ?_, ?_, ?_⟩
  · intro others more h
    rw [munch_iff.1 h]
    exact ⟨rfl, rfl⟩
  · rw [hread]
    constructor
    · rintro ⟨ts, hts⟩
      obtain ⟨hrest, hfits, _⟩ := readPieces_eq_ok hmatches hts
      exact ⟨hrest, hfits⟩
    · rintro ⟨hrest, hfits⟩
      cases h : readPieces [] (cut source.toList).1 (cut source.toList).2 with
      | ok ts => exact ⟨ts, rfl⟩
      | error e =>
        rcases readPieces_eq_error hmatches h with ⟨passed, piece, later, hp, _, hno, _⟩ | ⟨hne, _⟩
        · exact absurd (hfits piece (by simp [hp])) hno
        · exact absurd hrest hne
  · intro ts hts
    rw [hread] at hts
    obtain ⟨hrest, _, hyields⟩ := readPieces_eq_ok hmatches hts
    have htext := hmunch.flatMap_text
    rw [hrest, List.append_nil] at htext
    exact ⟨htext, hyields⟩
  · intro e he
    rw [hread] at he
    rcases readPieces_eq_error hmatches he with hfault | ⟨hne, hfits, rfl⟩
    · exact .inl hfault
    · exact .inr ⟨hfits, _, blames_offending hmunch.uncovered hne, rfl⟩

end FuzzLang.Token
