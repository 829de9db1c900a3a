import FuzzLang.Settings

/-!
# Where output goes

The name of a program comes from the last name of its input path, which is no step up, has no slash
and is not empty; its stem is not empty either. A name put after a directory is one more part of the
path (`Path.parts_join`), so generated text always goes into the output directory.

The stem itself need not be a name: that of `..a` is the current directory and that of `...` a step
up. This is the one way in which a built program misses the directory (`Settings.output_inside`).
-/

namespace FuzzLang

namespace Path

/-! ## Segments -/

theorem segments_slash_cons (cs : List Char) : segments ('/' :: cs) = [] :: segments cs :=
  if_pos rfl

theorem exists_segments_cons (cs : List Char) : ∃ first rest, segments cs = first :: rest := by
  fun_cases segments cs with
  | case1 => exact ⟨_, _, rfl⟩
  | case2 => exact ⟨_, _, rfl⟩
  | case3 => exact ⟨_, _, rfl⟩
  | case4 => exact ⟨_, _, rfl⟩

/-- A character other than a slash goes to the front of the segment after it. -/
theorem segments_cons {c : Char} (hc : c ≠ '/') {cs first : List Char} {rest : List (List Char)}
    (h : segments cs = first :: rest) : segments (c :: cs) = (c :: first) :: rest := by
  rw [segments, if_neg hc, h]

theorem segments_of_not_mem {cs : List Char} (h : '/' ∉ cs) : segments cs = [cs] := by
  induction cs with
  | nil => rfl
  | cons c cs ih =>
    rw [List.mem_cons, not_or] at h
    exact segments_cons (Ne.symm h.1) (ih h.2)

theorem segments_append_slash (cs ds : List Char) :
    segments (cs ++ '/' :: ds) = segments cs ++ segments ds := by
  induction cs with
  | nil => exact segments_slash_cons ds
  | cons c cs ih =>
    by_cases hc : c = '/'
    · subst hc
      rw [List.cons_append, segments_slash_cons, segments_slash_cons, ih, List.cons_append]
    · obtain ⟨first, rest, hcs⟩ := exists_segments_cons cs
      rw [hcs] at ih
      rw [List.cons_append, segments_cons hc ih, segments_cons hc hcs]
      rfl

theorem slash_not_mem_segments (cs : List Char) : ∀ segment ∈ segments cs, '/' ∉ segment := by
  induction cs with
  | nil => simp [segments]
  | cons c cs ih =>
    by_cases hc : c = '/'
    · subst hc
      rw [segments_slash_cons]
      exact List.forall_mem_cons.2 ⟨List.not_mem_nil, ih⟩
    · obtain ⟨first, rest, hcs⟩ := exists_segments_cons cs
      rw [hcs] at ih
      obtain ⟨hfirst, hrest⟩ := List.forall_mem_cons.1 ih
      rw [segments_cons hc hcs]
      exact List.forall_mem_cons.2 ⟨by simp [Ne.symm hc, hfirst], hrest⟩

/-! ## Parts -/

/-- A text that is one name: not empty, without slashes, and no dot or two dots alone. -/
structure IsName (s : String) : Prop where
  ne_empty : s ≠ ""
  slash_not_mem : '/' ∉ s.toList
  ne_here : s ≠ "."
  ne_up : s ≠ ".."

theorem part?_eq_name {segment : List Char} {s : String} (h : part? segment = some (.name s)) :
    segment = s.toList ∧ s ≠ "" ∧ s ≠ "." ∧ s ≠ ".." := by
  unfold part? at h
  split at h
  · cases h
  · rename_i hnone
    split at h
    · cases h
    · rename_i hup
      cases h
      rw [not_or] at hnone
      refine ⟨String.toList_ofList.symm, fun he => hnone.1 ?_, fun he => hnone.2 ?_,
        fun he => hup ?_⟩
      all_goals
        have hlist := congrArg String.toList he
        rwa [String.toList_ofList] at hlist

theorem part?_of_isName {s : String} (h : IsName s) : part? s.toList = some (.name s) := by
  have hne {t : String} (ht : s ≠ t) : s.toList ≠ t.toList := fun he => ht (String.toList_inj.1 he)
  have hskip : ¬ (s.toList = [] ∨ s.toList = ['.']) :=
    not_or.2 ⟨hne h.ne_empty, hne h.ne_here⟩
  have hup : s.toList ≠ ['.', '.'] := hne h.ne_up
  rw [part?, if_neg hskip, if_neg hup, String.ofList_toList]

/-- The names among the parts of a path. -/
theorem isName_of_mem_parts {path s : String} (h : .name s ∈ parts path) : IsName s := by
  have hsegment {segment : List Char} (hmem : segment ∈ segments path.toList)
      (hpart : part? segment = some (.name s)) : IsName s := by
    obtain ⟨rfl, hempty, hhere, hup⟩ := part?_eq_name hpart
    exact ⟨hempty, slash_not_mem_segments _ _ hmem, hhere, hup⟩
  obtain ⟨first, rest, hsegments⟩ := exists_segments_cons path.toList
  rw [hsegments] at hsegment
  rw [parts, hsegments] at h
  rcases List.mem_append.1 h with h | h
  · split at h
    · simp at h
    · split at h
      · simp at h
      · exact hsegment List.mem_cons_self (Option.mem_toList.1 h)
  · obtain ⟨segment, hmem, hpart⟩ := List.mem_filterMap.1 h
    exact hsegment (List.mem_cons_of_mem _ hmem) hpart

theorem isName_of_fileName? {path s : String} (h : fileName? path = some s) : IsName s := by
  unfold fileName? at h
  split at h
  · rename_i name hlast
    cases h
    exact isName_of_mem_parts (List.mem_of_getLast? hlast)
  · cases h

/-- After a slash, a text without slashes is one part more at most. -/
theorem parts_slash (dir : List Char) {name : List Char} (h : '/' ∉ name) :
    parts (String.ofList (dir ++ '/' :: name)) =
      parts (String.ofList (dir ++ ['/'])) ++ (part? name).toList := by
  obtain ⟨first, rest, hdir⟩ := exists_segments_cons dir
  have habsolute : isAbsolute (String.ofList (dir ++ '/' :: name)) =
      isAbsolute (String.ofList (dir ++ ['/'])) := by
    cases dir <;> simp [isAbsolute, String.toList_ofList]
  have hlast : [name].filterMap part? = (part? name).toList := by
    cases hname : part? name <;> simp [hname]
  rw [parts, parts, habsolute]
  simp only [String.toList_ofList, segments_append_slash, segments_of_not_mem h, hdir,
    List.cons_append, List.filterMap_append, hlast]
  rw [show segments [] = [[]] from rfl, show [[]].filterMap part? = [] from rfl, List.append_nil,
    List.append_assoc]

theorem parts_trailing {dir : List Char} (h : dir ≠ []) :
    parts (String.ofList (dir ++ ['/'])) = parts (String.ofList dir) := by
  obtain ⟨first, rest, hdir⟩ := exists_segments_cons dir
  have habsolute : isAbsolute (String.ofList (dir ++ ['/'])) = isAbsolute (String.ofList dir) := by
    obtain ⟨c, cs, rfl⟩ := List.exists_cons_of_ne_nil h
    simp [isAbsolute, String.toList_ofList]
  rw [parts, parts, habsolute]
  simp only [String.toList_ofList, segments_append_slash, hdir, List.cons_append,
    List.filterMap_append]
  rw [show segments [] = [[]] from rfl, show [[]].filterMap part? = [] from rfl, List.append_nil]

theorem isAbsolute_of_not_mem {s : String} (h : '/' ∉ s.toList) : isAbsolute s = false := by
  unfold isAbsolute
  cases hs : s.toList with
  | nil => rfl
  | cons c cs =>
    rw [hs, List.mem_cons, not_or] at h
    simpa using Ne.symm h.1

/-- A text without slashes is put after a directory with one slash between them, which is already
there if the directory ends in one. -/
theorem toList_join {dir name : String} (hdir : dir ≠ "") (hname : '/' ∉ name.toList) :
    ∃ front, (front = dir.toList ∨ front ++ ['/'] = dir.toList) ∧
      (join dir name).toList = front ++ '/' :: name.toList := by
  have hne : dir.toList ≠ [] := fun h => hdir (String.toList_inj.1 h)
  unfold join
  rw [isAbsolute_of_not_mem hname, if_neg (by decide)]
  obtain ⟨front, last, hlast⟩ : ∃ front last, dir.toList = front ++ [last] :=
    ⟨_, _, (List.dropLast_concat_getLast hne).symm⟩
  by_cases hslash : last = '/'
  · subst hslash
    refine ⟨front, .inr hlast.symm, ?_⟩
    rw [hlast, List.getLast?_concat, if_pos (by decide), String.toList_append, hlast,
      List.append_assoc]
    rfl
  · refine ⟨dir.toList, .inl rfl, ?_⟩
    rw [hlast, List.getLast?_concat, if_neg (by simpa using hslash), String.toList_append,
      String.toList_append, hlast, List.append_assoc]
    rfl

/-- A text without slashes, put after a directory, adds what it is as a part. -/
theorem parts_join {dir name : String} (hdir : dir ≠ "") (hname : '/' ∉ name.toList) :
    parts (join dir name) = parts dir ++ (part? name.toList).toList := by
  obtain ⟨front, hfront, hjoin⟩ := toList_join hdir hname
  rw [← String.ofList_toList (s := join dir name), hjoin, parts_slash front hname]
  congr 1
  rcases hfront with rfl | hfront
  · rw [parts_trailing fun h => hdir (String.toList_inj.1 h), String.ofList_toList]
  · rw [hfront, String.ofList_toList]

theorem join_append {name suffix : String} (dir : String) (hname : '/' ∉ name.toList)
    (hsuffix : '/' ∉ suffix.toList) : join dir (name ++ suffix) = join dir name ++ suffix := by
  have hboth : '/' ∉ (name ++ suffix).toList := by
    rw [String.toList_append, List.mem_append, not_or]
    exact ⟨hname, hsuffix⟩
  unfold join
  rw [isAbsolute_of_not_mem hname, isAbsolute_of_not_mem hboth]
  simp only [Bool.false_eq_true, if_false]
  split <;> simp only [String.append_assoc]

/-! ## Stems -/

theorem dropWhile_append_of_noDot {cs : List Char} (h : '.' ∉ cs) (rest : List Char) :
    (cs ++ rest).dropWhile (· != '.') = rest.dropWhile (· != '.') := by
  refine List.dropWhile_append_of_pos fun c hc => bne_iff_ne.2 ?_
  rintro rfl
  exact h hc

/-- The extension of a name begins at its last dot, unless nothing stands before that. -/
theorem stemOf_append {front ext : List Char} (hfront : front ≠ []) (hext : '.' ∉ ext) :
    stemOf (String.ofList (front ++ '.' :: ext)) = String.ofList front := by
  obtain ⟨c, cs, hreverse⟩ :=
    List.exists_cons_of_ne_nil fun h => hfront (List.reverse_eq_nil_iff.1 h)
  rw [stemOf, String.toList_ofList, List.reverse_append, List.reverse_cons, List.append_assoc,
    dropWhile_append_of_noDot (fun h => hext (List.mem_reverse.1 h)), hreverse,
    List.singleton_append, List.dropWhile_cons_of_neg (by decide)]
  simp only
  rw [← hreverse, List.reverse_reverse]

theorem stemOf_cases (s : String) :
    stemOf s = s ∨
      ∃ front ext, front ≠ [] ∧ '.' ∉ ext ∧ s = String.ofList (front ++ '.' :: ext) := by
  by_cases hdot : '.' ∈ s.toList
  · obtain ⟨ext, front, hs, hext⟩ := List.eq_append_cons_of_mem (List.mem_reverse.2 hdot)
    have htext : s.toList = front.reverse ++ '.' :: ext.reverse := by
      rw [← List.reverse_reverse s.toList, hs, List.reverse_append, List.reverse_cons,
        List.append_assoc, List.singleton_append]
    cases front with
    | nil =>
      refine .inl ?_
      rw [stemOf, hs, dropWhile_append_of_noDot hext, List.dropWhile_cons_of_neg (by decide)]
    | cons c cs =>
      refine .inr
        ⟨(c :: cs).reverse, ext.reverse, by simp, fun h => hext (List.mem_reverse.1 h), ?_⟩
      rw [← htext, String.ofList_toList]
  · refine .inl ?_
    have hnone := dropWhile_append_of_noDot (fun h => hdot (List.mem_reverse.1 h)) []
    rw [List.append_nil, List.dropWhile_nil] at hnone
    rw [stemOf, hnone]

end Path

namespace Settings

open FuzzLang.Path

/-- The name of a program is a name, or what stands before the last dot of one. -/
theorem programName_cases (input : String) :
    IsName (programName input) ∨
      ∃ front ext, front ≠ [] ∧ '.' ∉ ext ∧ IsName (String.ofList (front ++ '.' :: ext)) ∧
        fileName? input = some (String.ofList (front ++ '.' :: ext)) ∧
        programName input = String.ofList front := by
  unfold programName stem?
  cases hname : fileName? input with
  | none => exact .inl ⟨by decide, by decide, by decide, by decide⟩
  | some s =>
    have hs := isName_of_fileName? hname
    rcases stemOf_cases s with hstem | ⟨front, ext, hfront, hext, rfl⟩
    · refine .inl ?_
      rw [Option.map_some, Option.getD_some, hstem]
      exact hs
    · exact .inr ⟨front, ext, hfront, hext, hs, rfl, stemOf_append hfront hext⟩

theorem programName_ne_empty (input : String) : programName input ≠ "" := by
  rcases programName_cases input with h | ⟨front, ext, hfront, _, _, _, hprogram⟩
  · exact h.ne_empty
  · rw [hprogram]
    intro h
    have hlist := congrArg String.toList h
    rw [String.toList_ofList] at hlist
    exact hfront hlist

theorem slash_not_mem_programName (input : String) : '/' ∉ (programName input).toList := by
  rcases programName_cases input with h | ⟨front, ext, _, _, hname, _, hprogram⟩
  · exact h.slash_not_mem
  · rw [hprogram, String.toList_ofList]
    intro h
    refine hname.slash_not_mem ?_
    rw [String.toList_ofList]
    exact List.mem_append_left _ h

/-- The input files whose stems are dots: two or three of them, and then no more. -/
theorem programName_dots_iff (input : String) :
    (programName input = "." ∨ programName input = "..") ↔
      ∃ dots ext, (dots = "." ∨ dots = "..") ∧ '.' ∉ ext.toList ∧
        fileName? input = some (dots ++ "." ++ ext) := by
  constructor
  · intro h
    rcases programName_cases input with hname | ⟨front, ext, _, hext, _, hfile, hprogram⟩
    · rcases h with h | h
      · exact absurd h hname.ne_here
      · exact absurd h hname.ne_up
    · refine ⟨programName input, String.ofList ext, h, by rwa [String.toList_ofList], ?_⟩
      rw [hfile, hprogram]
      refine congrArg some (String.toList_inj.1 ?_)
      simp
  · rintro ⟨dots, ext, hdots, hext, hfile⟩
    have htext : dots ++ "." ++ ext = String.ofList (dots.toList ++ '.' :: ext.toList) := by
      refine String.toList_inj.1 ?_
      simp
    have hne : dots.toList ≠ [] := by
      rcases hdots with rfl | rfl <;> decide
    have hprogram : programName input = dots := by
      rw [programName, stem?, hfile, htext, Option.map_some, Option.getD_some,
        stemOf_append hne hext, String.ofList_toList]
    rwa [hprogram]

/-- With its ending the stem is always a name. -/
theorem isName_textName (input : String) : IsName (programName input ++ ".rs") := by
  have hne {t : String} (ht : t.toList.length ≤ 3) : programName input ++ ".rs" ≠ t := by
    intro h
    have hlength := congrArg (fun s : String => s.toList.length) h
    have hpos : 0 < (programName input).toList.length :=
      List.length_pos_iff.2 fun hnil => programName_ne_empty input (String.toList_inj.1 hnil)
    have hrs : ".rs".toList.length = 3 := by decide
    simp only [String.toList_append, List.length_append] at hlength
    omega
  refine ⟨hne (by decide), ?_, hne (by decide), hne (by decide)⟩
  rw [String.toList_append, List.mem_append, not_or]
  exact ⟨slash_not_mem_programName input, by decide⟩

/-- **Output stays in its directory, but for programs named by dots.** Under its default name a
program is called by a text that is not empty and has no slash. The generated text goes right into
the output directory, next to the program, whose path it adds its ending to. The program goes right
into the directory just if its name is one; it is not if the input file is named by two or three
dots with no dot after them, and then the program is the directory or the one above. -/
theorem output_inside (input : String) {outDir : String} (h : outDir ≠ "") :
    programName input ≠ "" ∧ '/' ∉ (programName input).toList ∧
    textPath { ofInput input with outDir := outDir } =
      binaryPath { ofInput input with outDir := outDir } ++ ".rs" ∧
    parts (textPath { ofInput input with outDir := outDir }) =
      parts outDir ++ [.name (programName input ++ ".rs")] ∧
    (programName input ≠ "." ∧ programName input ≠ ".." →
      parts (binaryPath { ofInput input with outDir := outDir }) =
        parts outDir ++ [.name (programName input)]) ∧
    (programName input = "." →
      parts (binaryPath { ofInput input with outDir := outDir }) = parts outDir) ∧
    (programName input = ".." →
      parts (binaryPath { ofInput input with outDir := outDir }) = parts outDir ++ [.up]) ∧
    (programName input = "." ∨ programName input = ".." ↔
      ∃ dots ext, (dots = "." ∨ dots = "..") ∧ '.' ∉ ext.toList ∧
        fileName? input = some (dots ++ "." ++ ext)) := by
  have hne := programName_ne_empty input
  have hslash := slash_not_mem_programName input
  have htext := isName_textName input
  have hbinary : parts (binaryPath { ofInput input with outDir := outDir }) =
      parts outDir ++ (part? (programName input).toList).toList := parts_join h hslash
  refine ⟨hne, hslash, join_append outDir hslash (by decide), ?_, ?_, ?_, ?_, ?_⟩
  · refine (parts_join h htext.slash_not_mem).trans ?_
    rw [part?_of_isName htext]
    rfl
  · rintro ⟨hhere, hup⟩
    rw [hbinary, part?_of_isName ⟨hne, hslash, hhere, hup⟩]
    rfl
  · intro hdot
    rw [hbinary, hdot]
    exact List.append_nil _
  · intro hdots
    rw [hbinary, hdots]
    rfl
  · exact programName_dots_iff input

/-- A hidden file, under a directory that ends in a slash. -/
theorem output_inside_hiddenFile :
    "out/" ≠ "" ∧
      (programName "src/.hidden.fuzz/." ≠ "." ∧ programName "src/.hidden.fuzz/." ≠ "..") ∧
      parts (binaryPath { ofInput "src/.hidden.fuzz/." with outDir := "out/" }) =
        parts "out/" ++ [.name (programName "src/.hidden.fuzz/.")] :=
  ⟨by decide, by decide, (output_inside "src/.hidden.fuzz/." (by decide)).2.2.2.2.1 (by decide)⟩

/-- The stem of three dots is a step up, and the program would go above its directory. -/
theorem threeDots_outside :
    programName "..." = ".." ∧ (ofInput "...").textPath = "__transpiled__/...rs" ∧
      (ofInput "...").binaryPath = "__transpiled__/.." ∧
      parts (ofInput "...").binaryPath = [.name "__transpiled__", .up] := by
  decide

end Settings

end FuzzLang
