import Breakthrough.Files
import Breakthrough.Settings

/-!
# Files that stay apart

Writing a file changes what its place holds and nothing else. The directories stay, so a path that can be written
can be written again (`Writable.put`), and other places hold what they held (`content?_put`). The files of a run
differ in the last name of their paths, so they never share a place, wherever the paths lead
(`locate_treePath_injective`).
-/

namespace Breakthrough

namespace FileTree

variable {t : FileTree} {path : String} {place other here : Place} {bytes : ByteArray}

/-! ## Following a path -/

theorem follow_dot (t : FileTree) (here : Place) (steps : List String) :
    t.follow here ("." :: steps) = t.follow here steps := by rw [follow]

theorem follow_dots (t : FileTree) (here : Place) (steps : List String) :
    t.follow here (".." :: steps) = t.follow here.outer steps := by rw [follow]

theorem follow_name {name : String} (hdot : name ≠ ".") (hdots : name ≠ "..") (t : FileTree) (here : Place)
    (steps : List String) :
    t.follow here (name :: steps) =
      if Path.maxNameBytes < name.utf8ByteSize then .error .invalidName
      else if steps.isEmpty || t.isDir (here ++ [name]) then t.follow (here ++ [name]) steps
      else if t.isFile (here ++ [name]) then .error .notADirectory
      else .error .notFound := by
  rw [follow]
  · exact hdot
  · exact hdots

/-- A path that ends with a name leads to a place of that name. -/
theorem getLast?_of_follow {steps : List String} {name : String} (hdot : name ≠ ".") (hdots : name ≠ "..")
    (h : t.follow here (steps ++ [name]) = .ok place) : place.getLast? = some name := by
  induction steps generalizing here with
  | nil =>
    rw [List.nil_append, follow_name hdot hdots] at h
    split at h
    · cases h
    · cases h
      exact List.getLast?_concat
  | cons step steps ih =>
    rw [List.cons_append] at h
    by_cases hstep : step = "."
    · subst hstep
      rw [follow_dot] at h
      exact ih h
    by_cases hstep' : step = ".."
    · subst hstep'
      rw [follow_dots] at h
      exact ih h
    rw [follow_name hstep hstep'] at h
    split at h
    · cases h
    · split at h
      · exact ih h
      · split at h <;> cases h

/-! ## Writing and reading -/

theorem lookup_filter_ne (files : List (Place × ByteArray)) (h : other ≠ place) :
    (files.filter fun f => f.1 != place).lookup other = files.lookup other := by
  induction files with
  | nil => rfl
  | cons f files ih =>
    obtain ⟨q, b⟩ := f
    by_cases hq : q = place
    · rw [List.filter_cons_of_neg (by simp [hq]), List.lookup_cons, hq, beq_eq_false_iff_ne.2 h, ih]
    · rw [List.filter_cons_of_pos (by simpa using hq), List.lookup_cons, List.lookup_cons, ih]

theorem content?_put (t : FileTree) (place other : Place) (bytes : ByteArray) :
    (t.put place bytes).content? other = if other = place then some bytes else t.content? other := by
  simp only [content?, put, List.lookup_cons]
  by_cases h : other = place
  · simp [h]
  · rw [beq_eq_false_iff_ne.2 h, if_neg h, lookup_filter_ne _ h]

theorem isDir_put (t : FileTree) (place other : Place) (bytes : ByteArray) :
    (t.put place bytes).isDir other = t.isDir other := rfl

/-- A path that can be followed to its end still can be: only directories are passed on the way. -/
theorem follow_put {steps : List String} (h : t.follow here steps = .ok place) :
    (t.put other bytes).follow here steps = .ok place := by
  induction steps generalizing here with
  | nil => exact h
  | cons name steps ih =>
    by_cases hdot : name = "."
    · subst hdot
      rw [follow_dot] at h ⊢
      exact ih h
    by_cases hdots : name = ".."
    · subst hdots
      rw [follow_dots] at h ⊢
      exact ih h
    rw [follow_name hdot hdots] at h ⊢
    split at h
    · cases h
    · rename_i hsize
      split at h
      · rename_i hnext
        rw [if_neg hsize, isDir_put, if_pos hnext]
        exact ih h
      · split at h <;> cases h

/-- A path leads to a place where a file can be written. -/
structure Writable (t : FileTree) (path : String) (place : Place) : Prop where
  locate : t.locate path = .ok place
  noSlash : path.endsWith "/" = false
  notDir : t.isDir place = false

theorem exists_writable {t' : FileTree} (h : t.write path bytes = .ok t') : ∃ place, t.Writable path place := by
  unfold write at h
  split at h
  · cases h
  · rename_i place hlocate
    split at h
    · cases h
    · rename_i hplace
      rw [Bool.or_eq_true, not_or, Bool.not_eq_true, Bool.not_eq_true] at hplace
      exact ⟨place, hlocate, hplace.1, hplace.2⟩

theorem Writable.write (h : t.Writable path place) (bytes : ByteArray) :
    t.write path bytes = .ok (t.put place bytes) := by
  simp only [FileTree.write, h.locate, h.noSlash, h.notDir, Bool.or_self, Bool.false_eq_true, if_false]

theorem Writable.put (h : t.Writable path place) (other : Place) (bytes : ByteArray) :
    (t.put other bytes).Writable path place := by
  refine ⟨?_, h.noSlash, h.notDir⟩
  have hlocate := h.locate
  unfold FileTree.locate at hlocate ⊢
  split at hlocate
  · cases hlocate
  split at hlocate
  · cases hlocate
  split at hlocate
  · cases hlocate
  rename_i hnul hempty hlong
  rw [if_neg hnul, if_neg hempty, if_neg hlong]
  exact follow_put hlocate

theorem Writable.read (h : t.Writable path place) (hcontent : t.content? place = some bytes) :
    t.read path = .ok bytes := by
  simp only [FileTree.read, h.locate, h.noSlash, h.notDir, hcontent, Bool.false_eq_true, if_false]

/-- A file with a plain name can be written in the working directory. -/
theorem writable_name {name : String} (hslash : '/' ∉ name.toList) (hnul : '\x00' ∉ name.toList)
    (hempty : name ≠ "") (hdot : name ≠ ".") (hdots : name ≠ "..") (hsize : name.utf8ByteSize ≤ Path.maxNameBytes)
    (hdir : t.dirs.contains [name] = false) : t.Writable name [name] := by
  have hroot : name ≠ "/" := by
    rintro rfl
    exact hslash (by decide)
  have hrelative : Path.isAbsolute name = false := by
    rw [Path.isAbsolute, Bool.eq_false_iff, ne_eq, String.startsWith_string_iff]
    exact fun h => hslash (h.subset (by decide))
  have hsteps : Path.steps name = [name] := by
    rw [Path.steps, Path.parts, List.splitOn_eq_singleton hslash, List.map_singleton, String.ofList_toList]
    simp [hempty]
  refine ⟨?_, ?_, ?_⟩
  · have hlong : ¬ Path.maxBytes < name.utf8ByteSize := by
      rw [Path.maxBytes]
      rw [Path.maxNameBytes] at hsize
      omega
    rw [locate, if_neg (by simpa using hnul), if_neg (by simpa using hempty), if_neg hlong, Place.start, hrelative,
      hsteps, follow_name hdot hdots, if_neg (Nat.not_lt.2 hsize)]
    rfl
  · rw [Bool.eq_false_iff, ne_eq, String.endsWith_eq_endsWith_toSlice, String.Slice.endsWith_string_iff]
    intro h
    have hmem := h.subset (a := '/') (by decide)
    exact hslash (by simpa using hmem)
  · simp [isDir, Place.root, hdots, hroot, hdir]

end FileTree

/-! ## The last name of a path -/

namespace Path

/-- What follows the last slash grows, the rest stays. -/
theorem exists_splitOn_append (cs : List Char) : ∃ front tail, ∀ ds : List Char, '/' ∉ ds →
    (cs ++ ds).splitOn '/' = front ++ [tail ++ ds] := by
  by_cases h : '/' ∈ cs
  · -- the last slash is the first one from behind
    obtain ⟨as, bs, hcs, has⟩ := List.eq_append_cons_of_mem (List.mem_reverse.2 h)
    rw [List.reverse_eq_iff, List.reverse_append, List.reverse_cons, List.append_assoc] at hcs
    refine ⟨bs.reverse.splitOn '/', as.reverse, fun ds hds => ?_⟩
    have htail : '/' ∉ as.reverse ++ ds := by simp [has, hds]
    rw [hcs, List.append_assoc, List.append_assoc, List.singleton_append, List.splitOn_append_cons_self,
      List.splitOn_eq_singleton htail]
  · refine ⟨[], cs, fun ds hds => ?_⟩
    rw [List.splitOn_eq_singleton, List.nil_append]
    simp [h, hds]

theorem exists_steps_append (base : String) : ∃ front tail, ∀ s : String, '/' ∉ s.toList → s ≠ "" →
    steps (base ++ s) = front ++ [tail ++ s] := by
  obtain ⟨front, tail, hsplit⟩ := exists_splitOn_append base.toList
  refine ⟨(front.map String.ofList).filter (· != ""), String.ofList tail, fun s hslash hne => ?_⟩
  have hlast : String.ofList (tail ++ s.toList) = String.ofList tail ++ s := by
    rw [String.ofList_append, String.ofList_toList]
  have hkept : (String.ofList tail ++ s != "") = true := by
    rw [bne_iff_ne, ne_eq, String.append_eq_empty_iff]
    exact fun h => hne h.2
  rw [steps, parts, String.toList_append, hsplit _ hslash, List.map_append, List.map_singleton, hlast,
    List.filter_append, List.filter_cons_of_pos (a := String.ofList tail ++ s) hkept]
  rfl

/-- Whether a path starts at the root is not told by its last name. -/
theorem isAbsolute_append {base s : String} (hslash : '/' ∉ s.toList) (h : s ≠ "") :
    isAbsolute (base ++ s) = isAbsolute base := by
  have hchars : s.toList ≠ [] := fun hnil => h (String.toList_eq_nil_iff.1 hnil)
  rw [Bool.eq_iff_iff, isAbsolute, isAbsolute, String.startsWith_string_iff, String.startsWith_string_iff,
    String.toList_append]
  change ['/'] <+: _ ↔ ['/'] <+: _
  cases hbase : base.toList with
  | nil =>
    obtain ⟨c, cs, hs⟩ := List.exists_cons_of_ne_nil hchars
    rw [hs] at hslash ⊢
    have hc : '/' ≠ c := fun hc => hslash (hc ▸ List.mem_cons_self)
    simp [List.cons_prefix_cons, hc]
  | cons c cs => simp [List.cons_prefix_cons]

end Path

namespace Settings

/-- What the path of a tree file ends with. -/
def treeEnd (ply : Nat) : String := toString ply ++ ".json"

theorem slash_notMem_treeEnd (ply : Nat) : '/' ∉ (treeEnd ply).toList := by
  rw [treeEnd, String.toList_append, Nat.toString_eq_repr, Nat.toList_repr, List.mem_append, not_or]
  refine ⟨fun h => ?_, by decide⟩
  have hdigit := Nat.isDigit_of_mem_toDigits (b := 10) (by decide) (by decide) h
  exact absurd hdigit (by decide)

theorem treeEnd_injective : Function.Injective treeEnd := by
  intro m n h
  have hdigits : toString m = toString n := (String.append_left_inj _).1 h
  rw [Nat.toString_eq_repr, Nat.toString_eq_repr, ← String.toList_inj, Nat.toList_repr, Nat.toList_repr] at hdigits
  rw [← Nat.ofDigitChars_ten_toDigits (n := m), hdigits, Nat.ofDigitChars_ten_toDigits]

theorem treeEnd_ne (ply : Nat) : treeEnd ply ≠ "" := by
  rw [treeEnd, ne_eq, String.append_eq_empty_iff]
  exact fun h => absurd h.2 (by decide)

/-- The path of a tree file differs from others in what it ends with. -/
theorem exists_treePath_eq (s : Settings) : ∃ base, ∀ ply, s.treePath ply = base ++ treeEnd ply := by
  have hname : ∀ ply : Nat, s!"{s.treePrefix}{ply}.json" = s.treePrefix ++ treeEnd ply := by
    intro ply
    rw [treeEnd, ← String.append_assoc]
    rfl
  have habsolute : ∀ ply, Path.isAbsolute (s.treePrefix ++ treeEnd ply) = Path.isAbsolute s.treePrefix :=
    fun ply => Path.isAbsolute_append (slash_notMem_treeEnd ply) (treeEnd_ne ply)
  by_cases hroot : Path.isAbsolute s.treePrefix || s.treeDir.isEmpty
  · refine ⟨s.treePrefix, fun ply => ?_⟩
    rw [treePath, hname, Path.join, habsolute, if_pos hroot]
  · by_cases hslash : s.treeDir.endsWith "/"
    · refine ⟨s.treeDir ++ s.treePrefix, fun ply => ?_⟩
      rw [treePath, hname, Path.join, habsolute, if_neg hroot, if_pos hslash, String.append_assoc]
    · refine ⟨s.treeDir ++ "/" ++ s.treePrefix, fun ply => ?_⟩
      rw [treePath, hname, Path.join, habsolute, if_neg hroot, if_neg hslash, String.append_assoc,
        String.append_assoc, String.append_assoc]

theorem treePath_injective (s : Settings) : Function.Injective s.treePath := by
  obtain ⟨base, hpath⟩ := s.exists_treePath_eq
  intro m n h
  rw [hpath, hpath] at h
  exact treeEnd_injective ((String.append_right_inj _).1 h)

/-- Tree files of different plies never share a place. -/
theorem locate_treePath_injective (s : Settings) {t : FileTree} {place : Place} {m n : Nat}
    (hm : t.locate (s.treePath m) = .ok place) (hn : t.locate (s.treePath n) = .ok place) : m = n := by
  obtain ⟨base, hpath⟩ := s.exists_treePath_eq
  obtain ⟨front, tail, hsteps⟩ := Path.exists_steps_append base
  have hlast : ∀ ply, t.locate (s.treePath ply) = .ok place → place.getLast? = some (tail ++ treeEnd ply) := by
    intro ply hlocate
    rw [hpath] at hlocate
    unfold FileTree.locate at hlocate
    split at hlocate
    · cases hlocate
    split at hlocate
    · cases hlocate
    split at hlocate
    · cases hlocate
    rw [hsteps _ (slash_notMem_treeEnd ply) (treeEnd_ne ply)] at hlocate
    have hlong : 2 < (tail ++ treeEnd ply).length := by
      rw [String.length_append, treeEnd, String.length_append]
      exact Nat.lt_of_lt_of_le (by decide : 2 < ".json".length) (by omega)
    refine FileTree.getLast?_of_follow (fun hdot => ?_) (fun hdots => ?_) hlocate
    · rw [hdot] at hlong
      exact absurd hlong (by decide)
    · rw [hdots] at hlong
      exact absurd hlong (by decide)
  have hsame := (hlast m hm).symm.trans (hlast n hn)
  exact treeEnd_injective ((String.append_right_inj _).1 (Option.some.inj hsame))

end Settings

end Breakthrough
