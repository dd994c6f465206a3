import OciKernel.Host.ShellFs

/-!
# Fs.OverlayList

What `OverlayMount::list` says of a directory, against `exists` and `is_dir`.

* `ChildName`: a name that a listing shows.
* `mem_list_child_iff`: the entries are the children that are a directory or a file.
* `list_agrees`: the listing has the visible subdirectories and files, sorted, and nothing else.
-/

namespace OciKernel

open Text

/-- The name of a visible child. -/
structure ChildName where
  text : Str
  nonempty : text ≠ []
  noSlash : '/' ∉ text
  visible : text.head? ≠ some '.'

namespace OverlayMount

variable {m : OverlayMount} {dir path e : Str}

/-- `"/"` for the root, and otherwise the directory without trailing slashes, and a slash. -/
def listPrefix (dir : Str) : Str := if dir = "/".toList then "/".toList else dirPrefix dir

def allPaths (m : OverlayMount) : List Str :=
  m.upper.files.keys ++ m.lower.flatMap fun l => l.files.keys

theorem mem_allPaths : path ∈ m.allPaths ↔ m.exists path = true := by
  rw [exists_iff_layers, allPaths, List.mem_append, List.mem_flatMap]

theorem mem_insertEntries {f : Str → Option Str} {paths : List Str} {seen : Std.TreeSet Str} :
    e ∈ paths.foldl (fun seen path =>
      match f path with
      | some entry => seen.insert entry
      | none => seen) seen ↔ e ∈ seen ∨ ∃ path ∈ paths, f path = some e := by
  induction paths generalizing seen with
  | nil => simp
  | cons path paths ih =>
    rw [List.foldl_cons, ih]
    cases hf : f path with
    | none => simp [hf]
    | some entry =>
      simp only [Std.TreeSet.mem_insert, Std.LawfulEqCmp.compare_eq_iff_eq, List.mem_cons,
        exists_eq_or_imp, hf, Option.some.injEq]
      tauto

/-- What the listing shows for the child `c`: a slash if some stored path goes on past it. -/
def shownAs (m : OverlayMount) (pre : Str) (c : ChildName) : Str :=
  if m.allPaths.any (pre ++ c.text ++ "/".toList).isPrefixOf then c.text ++ "/".toList else c.text

/-- `rest` ends the path or goes on with a slash. -/
def EndsName (rest : Str) : Prop := ∀ d ∈ rest.head?, d = '/'

theorem takeWhile_name (c : ChildName) {rest : Str} (h : EndsName rest) :
    (c.text ++ rest).takeWhile (· ≠ '/') = c.text := by
  cases rest with
  | nil =>
    rw [List.append_nil, List.takeWhile_eq_self_iff]
    intro d hd
    exact decide_eq_true fun he => c.noSlash (he ▸ hd)
  | cons d rest =>
    rw [h d rfl]
    exact takeWhile_ne_append c.noSlash rest

theorem listEntry_name (pre : Str) (c : ChildName) {rest : Str} (h : EndsName rest) :
    listEntry pre m.allPaths (pre ++ (c.text ++ rest)) = some (m.shownAs pre c) := by
  have hrel : pre.isPrefixOf? (pre ++ (c.text ++ rest)) = some (c.text ++ rest) :=
    List.isPrefixOf?_eq_some_iff_append_eq.2 rfl
  have hhead : (c.text ++ rest).head? = c.text.head? := List.head?_append_of_ne_nil _ c.nonempty
  have hne : c.text ++ rest ≠ [] := List.append_ne_nil_of_left_ne_nil c.nonempty rest
  rw [listEntry, hrel]
  simp only [hne, hhead, c.visible, takeWhile_name c h, c.nonempty, if_false, shownAs]
  split <;> rfl

/-- Every entry is the first component of some stored path. -/
theorem listEntry_eq_some {pre : Str} (h : listEntry pre m.allPaths path = some e) :
    ∃ (c : ChildName) (rest : Str), EndsName rest ∧ path = pre ++ (c.text ++ rest) ∧
      e = m.shownAs pre c := by
  cases hrel : pre.isPrefixOf? path with
  | none =>
    rw [listEntry, hrel] at h
    cases h
  | some rel =>
    have hpath : pre ++ rel = path := List.isPrefixOf?_eq_some_iff_append_eq.1 hrel
    have hsplit : rel.takeWhile (· ≠ '/') ++ rel.dropWhile (· ≠ '/') = rel :=
      List.takeWhile_append_dropWhile
    have hends : EndsName (rel.dropWhile (· ≠ '/')) := by
      intro d hd
      have hnot := List.head?_dropWhile_not (· ≠ '/') rel
      rw [Option.mem_def.1 hd] at hnot
      simpa using hnot
    have hentry := h
    rw [listEntry, hrel] at h
    dsimp only at h
    split at h
    · cases h
    split at h
    · cases h
    rename_i hvisible
    split at h
    · cases h
    rename_i hne
    have hhead : (rel.takeWhile (· ≠ '/')).head? = rel.head? := by
      conv_rhs => rw [← hsplit, List.head?_append_of_ne_nil _ hne]
    let c : ChildName :=
      { text := rel.takeWhile (· ≠ '/')
        nonempty := hne
        noSlash := fun hmem => by simpa using List.mem_takeWhile_imp hmem
        visible := hhead ▸ hvisible }
    refine ⟨c, _, hends, ?_, ?_⟩
    · rw [hsplit, hpath]
    · have hname := listEntry_name (m := m) pre c hends
      rw [hsplit, hpath, hentry] at hname
      exact Option.some.inj hname

theorem mem_list_iff : e ∈ m.list dir ↔ ∃ (c : ChildName) (rest : Str), EndsName rest ∧
    m.exists (listPrefix dir ++ (c.text ++ rest)) = true ∧ e = m.shownAs (listPrefix dir) c := by
  have hseen : e ∈ m.list dir ↔ e ∈ (∅ : Std.TreeSet Str) ∨
      ∃ path ∈ m.allPaths, listEntry (listPrefix dir) m.allPaths path = some e :=
    Std.TreeSet.mem_toList.trans mem_insertEntries
  rw [hseen]
  constructor
  · rintro (hmem | ⟨path, hpath, hentry⟩)
    · exact absurd hmem Std.TreeSet.not_mem_emptyc
    · obtain ⟨c, rest, hends, rfl, he⟩ := listEntry_eq_some hentry
      exact ⟨c, rest, hends, mem_allPaths.1 hpath, he⟩
  · rintro ⟨c, rest, hends, hpath, rfl⟩
    exact .inr ⟨_, mem_allPaths.2 hpath, listEntry_name _ c hends⟩

/-! ## Directories -/

theorem dirPrefix_child (pre : Str) (c : ChildName) :
    dirPrefix (pre ++ c.text) = pre ++ c.text ++ "/".toList := by
  have hlast : (pre ++ c.text).rdropWhile (· == '/') = pre ++ c.text := by
    rw [List.rdropWhile_eq_self_iff]
    intro hne heq
    rw [List.getLast_append_of_ne_nil _ c.nonempty] at heq
    have hslash : c.text.getLast c.nonempty = '/' := by simpa using heq
    exact c.noSlash (hslash ▸ List.getLast_mem c.nonempty)
  rw [dirPrefix, trimEndSlashes, hlast]

theorem listPrefix_ne_nil (dir : Str) : listPrefix dir ≠ [] := by
  rw [listPrefix]
  split
  · simp
  · exact List.append_ne_nil_of_right_ne_nil _ (by simp)

/-- A child is a directory iff the listing shows it with a slash. -/
theorem isDir_child (dir : Str) (c : ChildName) : m.isDir (listPrefix dir ++ c.text) = true ↔
    m.allPaths.any (listPrefix dir ++ c.text ++ "/".toList).isPrefixOf = true := by
  have hroot : listPrefix dir ++ c.text ≠ "/".toList := by
    intro he
    have hlen := congrArg List.length he
    have h₁ := List.length_pos_of_ne_nil (listPrefix_ne_nil dir)
    have h₂ := List.length_pos_of_ne_nil c.nonempty
    rw [List.length_append] at hlen
    have hone : "/".toList.length = 1 := rfl
    omega
  simp only [isDir_iff, hroot, false_or, dirPrefix_child, List.any_eq_true,
    List.isPrefixOf_iff_prefix, mem_allPaths]

theorem shownAs_eq (dir : Str) (c : ChildName) : m.shownAs (listPrefix dir) c =
    if m.isDir (listPrefix dir ++ c.text) = true then c.text ++ "/".toList else c.text := by
  simp only [shownAs, isDir_child]

/-- The child is a directory, or a file that is none. -/
theorem shown_iff (dir : Str) (c : ChildName) :
    (∃ rest, EndsName rest ∧ m.exists (listPrefix dir ++ (c.text ++ rest)) = true) ↔
      m.isDir (listPrefix dir ++ c.text) = true ∨ m.exists (listPrefix dir ++ c.text) = true := by
  constructor
  · rintro ⟨rest, hends, hpath⟩
    cases rest with
    | nil =>
      rw [List.append_nil] at hpath
      exact .inr hpath
    | cons d rest =>
      rw [hends d rfl] at hpath
      refine .inl ((isDir_iff ..).2 (.inr ⟨_, hpath, rest, ?_⟩))
      rw [dirPrefix_child]
      simp
  · rintro (hdir | hfile)
    · rw [isDir_child, List.any_eq_true] at hdir
      obtain ⟨path, hpath, hpre⟩ := hdir
      obtain ⟨rest, rfl⟩ := List.isPrefixOf_iff_prefix.1 hpre
      refine ⟨'/' :: rest, fun d hd => (Option.some.inj hd).symm, ?_⟩
      rw [mem_allPaths] at hpath
      simpa using hpath
    · exact ⟨[], nofun, by simpa using hfile⟩

theorem mem_list_child_iff : e ∈ m.list dir ↔ ∃ c : ChildName,
    (m.isDir (listPrefix dir ++ c.text) = true ∨ m.exists (listPrefix dir ++ c.text) = true) ∧
      e = if m.isDir (listPrefix dir ++ c.text) = true then c.text ++ "/".toList else c.text := by
  simp only [mem_list_iff, ← shown_iff, ← shownAs_eq]
  constructor
  · rintro ⟨c, rest, hends, hpath, he⟩
    exact ⟨c, ⟨rest, hends, hpath⟩, he⟩
  · rintro ⟨c, ⟨rest, hends, hpath⟩, he⟩
    exact ⟨c, rest, hends, hpath, he⟩

theorem ChildName.ne_slash (c c' : ChildName) : c.text ≠ c'.text ++ "/".toList :=
  fun he => c.noSlash (he ▸ List.mem_append_right _ (by simp))

/-- A directory is listed with a slash and a file that is no directory without, in strictly increasing
order; nothing else is listed. -/
theorem list_agrees (m : OverlayMount) (dir : Str) :
    (∀ c : ChildName,
      (c.text ++ "/".toList ∈ m.list dir ↔ m.isDir (listPrefix dir ++ c.text) = true) ∧
      (c.text ∈ m.list dir ↔ m.exists (listPrefix dir ++ c.text) = true ∧
        m.isDir (listPrefix dir ++ c.text) = false)) ∧
    (m.list dir).Pairwise (fun e e' => compare e e' = .lt) ∧
    ∀ e ∈ m.list dir, ∃ c : ChildName, e = c.text ∨ e = c.text ++ "/".toList := by
  refine ⟨fun c => ⟨?_, ?_⟩, Std.TreeSet.ordered_toList, ?_⟩
  · rw [mem_list_child_iff]
    constructor
    · rintro ⟨c', -, he⟩
      split at he
      · rename_i hdir
        rwa [List.append_cancel_right he]
      · exact absurd he.symm (ChildName.ne_slash c' c)
    · intro hdir
      exact ⟨c, .inl hdir, by rw [if_pos hdir]⟩
  · rw [mem_list_child_iff]
    constructor
    · rintro ⟨c', hshown, he⟩
      split at he
      · exact absurd he (ChildName.ne_slash c c')
      · rename_i hdir
        rw [he]
        exact ⟨hshown.resolve_left hdir, by simpa using hdir⟩
    · rintro ⟨hfile, hdir⟩
      exact ⟨c, .inr hfile, by simp [hdir]⟩
  · intro e he
    obtain ⟨c, -, rfl⟩ := mem_list_child_iff.1 he
    refine ⟨c, ?_⟩
    split
    · exact .inr rfl
    · exact .inl rfl

/-- The visible children of `/home/root` in the kernel root. -/
example : newKernelRoot.list "/home/root".toList = ["readme.txt".toList] := by decide +kernel

end OverlayMount

end OciKernel
