import OciKernel.Fs.OverlayRun
import OciKernel.Host.Getty

/-!
# Host.ShellFs

The tree that the shell's filesystem commands build on the kernel root. A directory is implicit: a
path is one when a stored path starts with it and a slash.

* `Disjoint`: no path is a file and a directory at once.
* `Free`: a file can be written at the path without breaking that.
* `disjoint_iff_writesFree`: a run of commands keeps files and directories disjoint iff each path it
  writes is free at that time.
-/

namespace OciKernel

open Text

namespace OverlayMount

variable {m : OverlayMount} {p q : Str} {data : Bytes}

def Disjoint (m : OverlayMount) : Prop := ∀ p, ¬ (m.exists p = true ∧ m.isDir p = true)

/-- What every path below the directory `p` starts with. -/
def dirPrefix (p : Str) : Str := trimEndSlashes p ++ "/".toList

/-- `p` is no directory, and no file stands where one of its ancestors has to be a directory. -/
def Free (m : OverlayMount) (p : Str) : Prop :=
  m.isDir p = false ∧ ∀ q, m.exists q = true → ¬ dirPrefix q <+: p

theorem exists_iff_layers (m : OverlayMount) (p : Str) :
    m.exists p = true ↔ p ∈ m.upper.files.keys ∨ ∃ l ∈ m.lower, p ∈ l.files.keys := by
  rw [«exists», UpperLayer.exists]
  simp only [Std.TreeMap.mem_keys, ← Std.TreeMap.contains_iff_mem]
  cases m.upper.files.contains p with
  | true => simp
  | false => simp [MemLayer.exists]

theorem isDir_iff (m : OverlayMount) (p : Str) :
    m.isDir p = true ↔ p = "/".toList ∨ ∃ k, m.exists k = true ∧ dirPrefix p <+: k := by
  rw [isDir]
  split
  · rename_i h
    exact iff_of_true rfl (.inl h)
  · rename_i h
    simp only [exists_iff_layers, Bool.or_eq_true, List.any_eq_true, List.isPrefixOf_iff_prefix, h,
      false_or, dirPrefix]
    constructor
    · rintro (⟨k, hk, hpre⟩ | ⟨l, hl, k, hk, hpre⟩)
      · exact ⟨k, .inl hk, hpre⟩
      · exact ⟨k, .inr ⟨l, hl, hk⟩, hpre⟩
    · rintro ⟨k, hk | ⟨l, hl, hk⟩, hpre⟩
      · exact .inl ⟨k, hk, hpre⟩
      · exact .inr ⟨l, hl, k, hk, hpre⟩

theorem exists_write_iff (m : OverlayMount) (p : Str) (data : Bytes) (q : Str) :
    (m.write p data).exists q = true ↔ q = p ∨ m.exists q = true := by
  simp only [«exists», UpperLayer.exists_eq, write_upper_read, write_lower]
  by_cases h : p = q
  · simp [h]
  · have hq : q ≠ p := fun he => h he.symm
    simp [h, hq]

theorem exists_of_exists_remove (h : (m.remove p).1.exists q = true) : m.exists q = true := by
  simp only [«exists», UpperLayer.exists_eq, remove_upper_read, remove_lower] at h ⊢
  by_cases hpq : p = q
  · subst hpq
    simp only [if_true] at h
    split
    · rfl
    · simpa using h
  · simpa [hpq] using h

/-- A path that does not end in a slash is not below itself. -/
theorem not_dirPrefix_self (h : p.getLast? ≠ some '/') : ¬ dirPrefix p <+: p := by
  have htrim : trimEndSlashes p = p := by
    rw [trimEndSlashes, List.rdropWhile_eq_self_iff]
    intro hne hlast
    rw [List.getLast?_eq_some_getLast hne] at h
    exact h (congrArg some (by simpa using hlast))
  intro hpre
  have hlen := hpre.length_le
  rw [dirPrefix, htrim, List.length_append] at hlen
  exact Nat.not_succ_le_self _ hlen

/-- Writing keeps the tree a tree exactly at a free path. -/
theorem disjoint_write_iff (h : m.Disjoint) (hp : p.getLast? ≠ some '/' ∨ p = "/".toList) :
    (m.write p data).Disjoint ↔ m.Free p := by
  have hfile : (m.write p data).exists p = true := (exists_write_iff ..).2 (.inl rfl)
  constructor
  · intro hd
    refine ⟨?_, ?_⟩
    · by_contra hdir
      rcases (isDir_iff m p).1 (by simpa using hdir) with hroot | ⟨k, hk, hpre⟩
      · exact hd p ⟨hfile, (isDir_iff ..).2 (.inl hroot)⟩
      · exact hd p ⟨hfile, (isDir_iff ..).2 (.inr ⟨k, (exists_write_iff ..).2 (.inr hk), hpre⟩)⟩
    · intro q hq hpre
      exact hd q ⟨(exists_write_iff ..).2 (.inr hq), (isDir_iff ..).2 (.inr ⟨p, hfile, hpre⟩)⟩
  · rintro ⟨hdir, hfree⟩ q ⟨hq, hqdir⟩
    have hdir : ¬ m.isDir p = true := by simp [hdir]
    have hslash : p.getLast? ≠ some '/' :=
      hp.resolve_right fun hroot => hdir ((isDir_iff m p).2 (.inl hroot))
    rcases (exists_write_iff ..).1 hq with rfl | hold
    · rcases (isDir_iff ..).1 hqdir with hroot | ⟨k, hk, hpre⟩
      · exact hdir ((isDir_iff ..).2 (.inl hroot))
      · rcases (exists_write_iff ..).1 hk with rfl | hk
        · exact not_dirPrefix_self hslash hpre
        · exact hdir ((isDir_iff ..).2 (.inr ⟨k, hk, hpre⟩))
    · rcases (isDir_iff ..).1 hqdir with hroot | ⟨k, hk, hpre⟩
      · exact h q ⟨hold, (isDir_iff ..).2 (.inl hroot)⟩
      · rcases (exists_write_iff ..).1 hk with rfl | hk
        · exact hfree q hold hpre
        · exact h q ⟨hold, (isDir_iff ..).2 (.inr ⟨k, hk, hpre⟩)⟩

theorem disjoint_remove (h : m.Disjoint) (p : Str) : (m.remove p).1.Disjoint := by
  rintro q ⟨hq, hqdir⟩
  refine h q ⟨exists_of_exists_remove hq, (isDir_iff ..).2 ?_⟩
  rcases (isDir_iff ..).1 hqdir with hroot | ⟨k, hk, hpre⟩
  · exact .inl hroot
  · exact .inr ⟨k, exists_of_exists_remove hk, hpre⟩

/-- The kernel root filesystem is a tree. -/
theorem disjoint_newKernelRoot : newKernelRoot.Disjoint := by
  have hkeys : ∀ k ∈ kernelRootLayer.files.keys, newKernelRoot.isDir k = false := by decide
  rintro p ⟨hp, hdir⟩
  rcases (exists_iff_layers ..).1 hp with hk | ⟨l, hl, hk⟩
  · have hempty : newKernelRoot.upper.files.keys = [] := rfl
    rw [hempty] at hk
    cases hk
  · rw [List.mem_singleton.1 hl] at hk
    simp [hkeys p hk] at hdir

end OverlayMount

namespace Kernel

variable {k : Kernel}

/-! ## Resolved paths -/

/-- One segment of a path that is being resolved. -/
def pushSegment (parts : List Str) (seg : Str) : List Str :=
  if seg = [] ∨ seg = ".".toList then parts
  else if seg = "..".toList then parts.dropLast
  else parts ++ [seg]

def renderPath (parts : List Str) : Str :=
  if parts = [] then "/".toList else parts.flatMap fun s => '/' :: s

theorem resolvePath_eq (k : Kernel) (path : Str) :
    k.resolvePath path = renderPath
      (((if path.head? = some '/' then path else k.cwd ++ "/".toList ++ path).splitOn '/').foldl
        pushSegment []) := rfl

/-- The segments kept are pieces between two slashes, and not empty. -/
theorem pushSegment_sound {parts : List Str} {seg : Str} (hseg : '/' ∉ seg)
    (h : ∀ s ∈ parts, s ≠ [] ∧ '/' ∉ s) : ∀ s ∈ pushSegment parts seg, s ≠ [] ∧ '/' ∉ s := by
  unfold pushSegment
  split
  · exact h
  · rename_i hne
    split
    · exact fun s hs => h s (List.mem_of_mem_dropLast hs)
    · intro s hs
      rcases List.mem_append.1 hs with hs | hs
      · exact h s hs
      · rw [List.mem_singleton.1 hs]
        exact ⟨fun he => hne (.inl he), hseg⟩

theorem foldl_pushSegment_sound {segs parts : List Str} (hsegs : ∀ s ∈ segs, '/' ∉ s)
    (h : ∀ s ∈ parts, s ≠ [] ∧ '/' ∉ s) :
    ∀ s ∈ segs.foldl pushSegment parts, s ≠ [] ∧ '/' ∉ s := by
  induction segs generalizing parts with
  | nil => exact h
  | cons seg segs ih =>
    exact ih (fun s hs => hsegs s (List.mem_cons_of_mem _ hs))
      (pushSegment_sound (hsegs seg (List.mem_cons_self ..)) h)

theorem renderPath_getLast? {parts : List Str} (h : ∀ s ∈ parts, s ≠ [] ∧ '/' ∉ s) :
    (renderPath parts).getLast? ≠ some '/' ∨ renderPath parts = "/".toList := by
  unfold renderPath
  split
  · exact .inr rfl
  · rename_i hne
    refine .inl ?_
    obtain ⟨init, seg, rfl⟩ := (List.eq_nil_or_concat' parts).resolve_left hne
    obtain ⟨hseg, hslash⟩ := h seg (by simp)
    have hlast : ((init ++ [seg]).flatMap fun s => '/' :: s).getLast? = seg.getLast? := by
      rw [List.flatMap_append, List.flatMap_singleton, List.getLast?_append_of_ne_nil _ (by simp),
        List.getLast?_cons, List.getLast?_eq_some_getLast hseg]
      rfl
    rw [hlast]
    exact fun he => hslash (List.mem_of_getLast? he)

/-- A resolved path is the root, or does not end in a slash. -/
theorem resolvePath_getLast? (k : Kernel) (path : Str) :
    (k.resolvePath path).getLast? ≠ some '/' ∨ k.resolvePath path = "/".toList := by
  rw [resolvePath_eq]
  exact renderPath_getLast? (foldl_pushSegment_sound (fun s hs => notMem_of_mem_splitOn hs) nofun)

/-! ## What a command writes -/

/-- The path of the file that a command writes, if it writes one. -/
def written (k : Kernel) : ShellCommand → Option Str
  | .echo _ (some dest) => some (k.resolvePath dest)
  | .touch path => if k.rootFs.exists (k.resolvePath path) then none else some (k.resolvePath path)
  | .mkdir path => some (OverlayMount.trimEndSlashes (k.resolvePath path) ++ "/.keep".toList)
  | _ => none

def WritesFree (k : Kernel) (cmd : ShellCommand) : Prop := ∀ p, k.written cmd = some p → k.rootFs.Free p

/-- A command writes one file, removes a path, or leaves the filesystem alone. -/
theorem execute_rootFs (k : Kernel) (cmd : ShellCommand) :
    (∃ p data, k.written cmd = some p ∧ (p.getLast? ≠ some '/' ∨ p = "/".toList) ∧
      (k.execute cmd).rootFs = k.rootFs.write p data) ∨
    (k.written cmd = none ∧ ∃ p, (k.execute cmd).rootFs = (k.rootFs.remove p).1) ∨
    (k.written cmd = none ∧ (k.execute cmd).rootFs = k.rootFs) := by
  cases cmd with
  | echo text file =>
    cases file with
    | some dest => exact .inl ⟨_, _, rfl, k.resolvePath_getLast? dest, rfl⟩
    | none => exact .inr (.inr ⟨rfl, rfl⟩)
  | touch path =>
    simp only [written, execute]
    cases k.rootFs.exists (k.resolvePath path) with
    | true => exact .inr (.inr ⟨rfl, rfl⟩)
    | false => exact .inl ⟨_, _, rfl, k.resolvePath_getLast? path, rfl⟩
  | mkdir path =>
    refine .inl ⟨_, _, rfl, .inl ?_, rfl⟩
    rw [List.getLast?_append_of_ne_nil _ (by decide)]
    decide
  | rm path => exact .inr (.inl ⟨rfl, _, rfl⟩)
  | cd path =>
    refine .inr (.inr ⟨rfl, ?_⟩)
    simp only [execute]
    split <;> rfl
  | imagePull name tag =>
    refine .inr (.inr ⟨rfl, ?_⟩)
    simp only [execute]
    split <;> rfl
  | volumeCreate name =>
    refine .inr (.inr ⟨rfl, ?_⟩)
    simp only [execute]
    split <;> rfl
  | containerStop id =>
    refine .inr (.inr ⟨rfl, ?_⟩)
    simp only [execute]
    split <;> rfl
  | _ => exact .inr (.inr ⟨rfl, rfl⟩)

theorem disjoint_execute_iff (h : k.rootFs.Disjoint) (cmd : ShellCommand) :
    (k.execute cmd).rootFs.Disjoint ↔ k.WritesFree cmd := by
  rw [WritesFree]
  rcases k.execute_rootFs cmd with ⟨p, data, hw, hp, heq⟩ | ⟨hw, p, heq⟩ | ⟨hw, heq⟩
  · rw [heq, OverlayMount.disjoint_write_iff h hp, hw]
    simp
  · rw [heq, hw]
    exact iff_of_true (OverlayMount.disjoint_remove h p) nofun
  · rw [heq, hw]
    exact iff_of_true h nofun

/-- Files and directories stay disjoint in a run of the shell iff each path that a command writes is
free when it is written. -/
theorem disjoint_iff_writesFree (cmds : List ShellCommand) :
    Transition.Throughout execute (fun k => k.rootFs.Disjoint) init cmds ↔
      Transition.StepsMeet execute WritesFree init cmds :=
  Transition.throughout_iff_stepsMeet (fun _ h => h) (fun _ cmd h => disjoint_execute_iff h cmd)
    (fun _ cmd h hok => (disjoint_execute_iff h cmd).2 hok) OverlayMount.disjoint_newKernelRoot

/-- `touch /etc` makes a file of a directory. -/
theorem touch_directory :
    (init.execute (.touch "/etc".toList)).rootFs.exists "/etc".toList = true ∧
      (init.execute (.touch "/etc".toList)).rootFs.isDir "/etc".toList = true := by
  decide

end Kernel

end OciKernel
