import FuzzLang.Proofs.Token.Reading

/-!
# Places in the order of bytes

A source is a row of bytes, and the place of an offset is told by the bytes before it:
`Location.afterBytes` counts line feeds and the bytes since the last of them. The line table finds
just that place at every offset, also inside a character (`locate_eq_afterBytes`), so places come in
the order of offsets and tokens in the order of their places (`locate_exact`).
-/

namespace FuzzLang

/-! ## Bytes -/

/-- The bytes of a text in UTF-8. -/
def utf8Bytes (cs : List Char) : List UInt8 := cs.flatMap String.utf8EncodeChar

@[simp] theorem utf8Bytes_append (cs ds : List Char) :
    utf8Bytes (cs ++ ds) = utf8Bytes cs ++ utf8Bytes ds := List.flatMap_append

@[simp] theorem utf8Bytes_cons (c : Char) (cs : List Char) :
    utf8Bytes (c :: cs) = String.utf8EncodeChar c ++ utf8Bytes cs := rfl

theorem length_utf8Bytes (cs : List Char) : (utf8Bytes cs).length = utf8Length cs := by
  induction cs with
  | nil => rfl
  | cons c cs ih =>
    rw [utf8Bytes_cons, List.length_append, ih, String.length_utf8EncodeChar, utf8Length_cons]

theorem toList_toByteArray (s : String) : s.toByteArray.data.toList = utf8Bytes s.toList := by
  rw [← String.utf8Encode_toList, List.utf8Encode, List.data_toByteArray]
  rfl

/-- Only a line feed has the byte of a line feed in it. -/
theorem lineFeed_mem_utf8EncodeChar {c : Char} : 10 ∈ String.utf8EncodeChar c ↔ c = '\n' := by
  constructor
  · intro h
    have hbyte {n : Nat} (hn : (10 : UInt8) = UInt8.ofNat n) : n % 256 = 10 := by
      simpa using (congrArg UInt8.toNat hn).symm
    rw [String.utf8EncodeChar.eq_1] at h
    split at h
    · have hval := hbyte (List.mem_singleton.1 h)
      refine Char.ext (UInt32.toNat_inj.1 ?_)
      show c.val.toNat = 10
      omega
    · -- the bytes of longer characters are 128 or more
      exfalso
      split at h
      · simp only [List.mem_cons, List.not_mem_nil, or_false] at h
        rcases h with h | h <;> replace h := hbyte h <;> omega
      split at h
      · simp only [List.mem_cons, List.not_mem_nil, or_false] at h
        rcases h with h | h | h <;> replace h := hbyte h <;> omega
      · simp only [List.mem_cons, List.not_mem_nil, or_false] at h
        rcases h with h | h | h | h <;> replace h := hbyte h <;> omega
  · rintro rfl
    decide

namespace Location

/-- The place after some bytes: its line counts the line feeds, its column the bytes after the
last. -/
def afterBytes (bytes : List UInt8) : Location :=
  ⟨1 + bytes.count 10, 1 + (bytes.reverse.takeWhile (· != 10)).length⟩

/-- A place on an earlier line, or on the same line in an earlier column. -/
def Before (l m : Location) : Prop := l.line < m.line ∨ l.line = m.line ∧ l.column < m.column

theorem Before.ne {l m : Location} (h : l.Before m) : l ≠ m := by
  rintro rfl
  rcases h with h | ⟨-, h⟩ <;> exact Nat.lt_irrefl _ h

theorem afterBytes_append_of_not_mem (bytes : List UInt8) {more : List UInt8} (h : 10 ∉ more) :
    afterBytes (bytes ++ more) =
      ⟨(afterBytes bytes).line, (afterBytes bytes).column + more.length⟩ := by
  have hpass : ∀ b ∈ more.reverse, (b != 10) = true := by
    intro b hb
    refine bne_iff_ne.2 ?_
    rintro rfl
    exact h (List.mem_reverse.1 hb)
  unfold afterBytes
  rw [List.count_append, List.count_eq_zero.2 h, List.reverse_append,
    List.takeWhile_append_of_pos hpass, List.length_append, List.length_reverse]
  simp only [mk.injEq]
  omega

/-- More bytes take the place further. -/
theorem before_afterBytes_append (bytes : List UInt8) {more : List UInt8} (h : more ≠ []) :
    (afterBytes bytes).Before (afterBytes (bytes ++ more)) := by
  by_cases hmem : 10 ∈ more
  · have hcount := List.count_pos_iff.2 hmem
    refine .inl ?_
    simp only [afterBytes, List.count_append]
    omega
  · have hpos := List.length_pos_iff.2 h
    rw [afterBytes_append_of_not_mem bytes hmem]
    exact .inr ⟨rfl, by simp only; omega⟩

theorem next_afterBytes (bytes : List UInt8) (c : Char) :
    (afterBytes bytes).next c = afterBytes (bytes ++ String.utf8EncodeChar c) := by
  by_cases hc : c = '\n'
  · subst hc
    rw [next, if_pos rfl, show String.utf8EncodeChar '\n' = [10] from rfl, afterBytes, afterBytes,
      List.count_append, List.reverse_append]
    rfl
  · rw [next, if_neg hc, afterBytes_append_of_not_mem bytes fun h =>
      hc (lineFeed_mem_utf8EncodeChar.1 h), String.length_utf8EncodeChar]

/-- Walking over the characters of a text and counting its bytes lead to the same place. -/
theorem after_eq_afterBytes (cs : List Char) : after cs = afterBytes (utf8Bytes cs) := by
  have hfold (bytes : List UInt8) :
      cs.foldl next (afterBytes bytes) = afterBytes (bytes ++ utf8Bytes cs) := by
    induction cs generalizing bytes with
    | nil => exact congrArg afterBytes (List.append_nil bytes).symm
    | cons c cs ih => rw [List.foldl_cons, next_afterBytes, ih, utf8Bytes_cons, List.append_assoc]
  exact hfold []

theorem before_after_append (cs : List Char) {ds : List Char} (h : ds ≠ []) :
    (after cs).Before (after (cs ++ ds)) := by
  rw [after_eq_afterBytes, after_eq_afterBytes, utf8Bytes_append]
  refine before_afterBytes_append _ fun hnil => h ?_
  obtain ⟨d, ds, rfl⟩ := List.exists_cons_of_ne_nil h
  have hlength := congrArg List.length hnil
  have hpos := d.utf8Size_pos
  rw [length_utf8Bytes, utf8Length_cons, List.length_nil] at hlength
  omega

/-- Of two starts of a text that end at one place, neither is longer. -/
theorem eq_of_after_eq {cs ds cs' ds' : List Char} (htext : cs ++ cs' = ds ++ ds')
    (h : after cs = after ds) : cs = ds := by
  have hmore {es more : List Char} (he : after es = after (es ++ more)) : more = [] :=
    Decidable.byContradiction fun hne => (before_after_append es hne).ne he
  rcases List.append_eq_append_iff.1 htext with ⟨more, rfl, -⟩ | ⟨more, rfl, -⟩
  · rw [hmore h, List.append_nil]
  · rw [hmore h.symm, List.append_nil]

end Location

/-! ## Offsets -/

/-- An offset in a text lies right before a character or inside one, or at the end. -/
theorem exists_between {cs : List Char} {offset : Nat} (h : offset ≤ utf8Length cs) :
    ∃ front rest inner, cs = front ++ rest ∧ offset = utf8Length front + inner ∧
      (inner = 0 ∨ ∃ c more, rest = c :: more ∧ inner < c.utf8Size) := by
  induction cs generalizing offset with
  | nil => exact ⟨[], [], 0, rfl, Nat.le_zero.1 h, .inl rfl⟩
  | cons c cs ih =>
    by_cases hc : offset < c.utf8Size
    · exact ⟨[], c :: cs, offset, rfl, (Nat.zero_add _).symm, .inr ⟨c, cs, rfl, hc⟩⟩
    · rw [utf8Length_cons] at h
      have hrest : offset - c.utf8Size ≤ utf8Length cs := by omega
      obtain ⟨front, rest, inner, rfl, hoffset, hinner⟩ := ih hrest
      refine ⟨c :: front, rest, inner, rfl, ?_, hinner⟩
      rw [utf8Length_cons, Nat.add_assoc, ← hoffset, Nat.add_sub_cancel' (Nat.le_of_not_lt hc)]

namespace LineTable

/-- No line begins inside a character. -/
theorem lt_of_mem_lineStarts {front rest : List Char} {inner start : Nat}
    (hinner : inner = 0 ∨ ∃ c more, rest = c :: more ∧ inner < c.utf8Size)
    (h : start ∈ lineStarts (utf8Length front) rest) : utf8Length front + inner < start := by
  rcases hinner with rfl | ⟨c, more, rfl, hc⟩
  · exact (bounds_of_mem_lineStarts h).1
  · rw [lineStarts] at h
    split at h
    · rcases List.mem_cons.1 h with rfl | h
      · omega
      · have := (bounds_of_mem_lineStarts h).1
        omega
    · have := (bounds_of_mem_lineStarts h).1
      omega

/-- Up to the end of a text, the line of an offset is in the table and begins no later. -/
theorem exists_start {cs : List Char} {offset : Nat} (h : offset ≤ utf8Length cs) :
    1 ≤ (ofSource cs).lineAt offset ∧
      ∃ start, (ofSource cs).starts[(ofSource cs).lineAt offset - 1]? = some start ∧
        start ≤ offset := by
  obtain ⟨front, rest, inner, rfl, rfl, hinner⟩ := exists_between h
  rw [lineAt_of_between (Nat.le_add_right _ _) fun _ => lt_of_mem_lineStarts hinner]
  have hlt : (0 :: lineStarts 0 front).length - 1 < (0 :: lineStarts 0 front).length :=
    Nat.lt_succ_self _
  refine ⟨Nat.succ_pos _, (0 :: lineStarts 0 front)[(0 :: lineStarts 0 front).length - 1], ?_, ?_⟩
  · rw [starts_ofSource, List.getElem?_toArray, List.getElem?_append_left hlt,
      List.getElem?_eq_getElem hlt]
  · exact Nat.le_trans (le_of_mem_starts (List.getElem_mem hlt)) (Nat.le_add_right _ _)

/-- The table finds the place that the bytes before an offset tell. -/
theorem locate_eq_afterBytes {cs : List Char} {offset : Nat} (h : offset ≤ utf8Length cs) :
    (ofSource cs).locate offset = .afterBytes ((utf8Bytes cs).take offset) := by
  obtain ⟨front, rest, inner, rfl, rfl, hinner⟩ := exists_between h
  have hbefore : (utf8Bytes (front ++ rest)).take (utf8Length front + inner) =
      utf8Bytes front ++ (utf8Bytes rest).take inner := by
    rw [utf8Bytes_append, ← length_utf8Bytes, List.take_length_add_append]
  have hfree : 10 ∉ (utf8Bytes rest).take inner ∧ ((utf8Bytes rest).take inner).length = inner := by
    rcases hinner with rfl | ⟨c, more, rfl, hc⟩
    · simp
    · -- a line feed is one byte, so an offset inside a character has none before it there
      have hle : inner ≤ (String.utf8EncodeChar c).length := by
        rw [String.length_utf8EncodeChar]
        exact Nat.le_of_lt hc
      rw [utf8Bytes_cons, List.take_append_of_le_length hle]
      refine ⟨fun hmem => ?_, List.length_take_of_le hle⟩
      obtain rfl := lineFeed_mem_utf8EncodeChar.1 (List.mem_of_mem_take hmem)
      obtain rfl : inner = 0 := Nat.lt_one_iff.1 hc
      cases hmem
  rw [locate_of_between (Nat.le_add_right _ _) fun _ => lt_of_mem_lineStarts hinner, hbefore,
    Location.afterBytes_append_of_not_mem _ hfree.1, hfree.2, Location.after_eq_afterBytes,
    Nat.add_sub_cancel_left]

theorem before_locate {cs : List Char} {i j : Nat} (hij : i < j) (hj : j ≤ utf8Length cs) :
    ((ofSource cs).locate i).Before ((ofSource cs).locate j) := by
  have hsplit := List.take_append_drop i ((utf8Bytes cs).take j)
  rw [List.take_take, Nat.min_eq_left (Nat.le_of_lt hij)] at hsplit
  rw [locate_eq_afterBytes (Nat.le_trans (Nat.le_of_lt hij) hj), locate_eq_afterBytes hj, ← hsplit]
  refine Location.before_afterBytes_append _ fun hnil => ?_
  have hlength := congrArg List.length hnil
  rw [List.length_drop, List.length_take, length_utf8Bytes, List.length_nil] at hlength
  omega

end LineTable

/-! ## Tokens -/

namespace Token

theorem Yields.exists_after {before : List Char} {pieces : List Piece} {ts : List Token}
    (h : Yields before pieces ts) : ∀ t ∈ ts, ∃ passed, t.location = .after (before ++ passed) := by
  induction h with
  | nil => simp
  | skip _ _ ih =>
    intro t ht
    obtain ⟨passed, hpassed⟩ := ih t ht
    exact ⟨_, hpassed.trans (congrArg _ (List.append_assoc ..))⟩
  | token _ hl _ ih =>
    refine List.forall_mem_cons.2 ⟨⟨[], hl.trans (congrArg _ (List.append_nil _).symm)⟩, ?_⟩
    intro t ht
    obtain ⟨passed, hpassed⟩ := ih t ht
    exact ⟨_, hpassed.trans (congrArg _ (List.append_assoc ..))⟩

/-- Tokens come in the order of their places. -/
theorem Yields.pairwise_before {before : List Char} {pieces : List Piece} {ts : List Token}
    (h : Yields before pieces ts) (hne : ∀ piece ∈ pieces, piece.text ≠ []) :
    ts.Pairwise fun t u => t.location.Before u.location := by
  induction h with
  | nil => exact .nil
  | skip _ _ ih => exact ih (List.forall_mem_cons.1 hne).2
  | @token before piece pieces t ts _ hl hlater ih =>
    obtain ⟨hpiece, hpieces⟩ := List.forall_mem_cons.1 hne
    refine .cons (fun u hu => ?_) (ih hpieces)
    obtain ⟨passed, hpassed⟩ := hlater.exists_after u hu
    rw [hl, hpassed, List.append_assoc]
    exact Location.before_after_append before (by simp [hpiece])

end Token

/-- **Line lookup.** At every offset of a source, also inside a character and at the end, the table
has the line that the lookup takes, and the place counts the line feeds before the offset and the
bytes since the last of them. So places tell offsets apart and come in their order, and the tokens
of a source come in the order of their places. -/
theorem LineTable.locate_exact (source : String) :
    (∀ offset ≤ source.utf8ByteSize,
      (1 ≤ (ofSource source.toList).lineAt offset ∧
        ∃ start, (ofSource source.toList).starts[(ofSource source.toList).lineAt offset - 1]? =
          some start ∧ start ≤ offset) ∧
      (ofSource source.toList).locate offset =
        ⟨1 + (source.toByteArray.data.toList.take offset).count 10,
          1 + ((source.toByteArray.data.toList.take offset).reverse.takeWhile (· != 10)).length⟩) ∧
    (∀ i j, i ≤ source.utf8ByteSize → j ≤ source.utf8ByteSize →
      (ofSource source.toList).locate i = (ofSource source.toList).locate j → i = j) ∧
    (∀ i j, i < j → j ≤ source.utf8ByteSize →
      ((ofSource source.toList).locate i).Before ((ofSource source.toList).locate j)) ∧
    ∀ tokens, Token.tokenize source = .ok tokens →
      tokens.Pairwise fun t u => t.location.Before u.location := by
  have hsize : source.utf8ByteSize = utf8Length source.toList := by
    rw [← length_utf8Bytes, ← toList_toByteArray, Array.length_toList, ← String.size_toByteArray]
    rfl
  rw [hsize, toList_toByteArray]
  refine ⟨fun offset h => ⟨exists_start h, locate_eq_afterBytes h⟩, ?_,
    fun i j => before_locate, ?_⟩
  · intro i j hi hj heq
    rcases Nat.lt_trichotomy i j with hij | hij | hij
    · exact absurd heq (before_locate hij hj).ne
    · exact hij
    · exact absurd heq.symm (before_locate hij hi).ne
  · intro tokens htokens
    refine (Token.yields_of_tokenize htokens).pairwise_before fun piece hp => ?_
    exact ((Token.munch_cut source.toList).matches_of_mem piece hp).ne_nil

/-- Offset 1 is inside the first character, of two bytes, and offset 4 is on the third line. -/
theorem LineTable.locate_exact_insideCharacter :
    1 ≤ "é\n\n;".utf8ByteSize ∧ (ofSource "é\n\n;".toList).locate 1 = ⟨1, 2⟩ ∧
      ((ofSource "é\n\n;".toList).locate 1).Before ((ofSource "é\n\n;".toList).locate 4) :=
  ⟨by decide +kernel, ((locate_exact "é\n\n;").1 1 (by decide +kernel)).2.trans (by decide +kernel),
    (locate_exact "é\n\n;").2.2.1 1 4 (by decide) (by decide +kernel)⟩

end FuzzLang
