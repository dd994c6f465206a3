import OciKernel.Fs.OverlayList
import OciKernel.Host.Listing
import OciKernel.Lib.FileTree

/-!
# Host.FileTree

The filesystem that a user of the shell sees. It is a tree of named files with a working directory; strings
of slashes, layers of stored paths and prefix searches do not appear in it.

* `FileShell`: the tree, and what each command does to it and prints of it.
* `Refines`: how the kernel state represents one. `pathOf_below`: below a directory is below its path.
* `fileShell_exact`: over every run the shell prints what the tree says.
-/

namespace OciKernel

open Text Path FileTree Kernel

instance (seg : Str) : Decidable (IsName seg) :=
  decidable_of_iff (seg ≠ [] ∧ seg ≠ ".".toList ∧ seg ≠ "..".toList ∧ '/' ∉ seg)
    ⟨fun h => ⟨h.1, h.2.1, h.2.2.1, h.2.2.2⟩, fun h => ⟨h.ne_nil, h.ne_dot, h.ne_dotDot, h.slash⟩⟩

abbrev Name := { seg : Str // IsName seg }

/-! ## The tree and its commands -/

structure FileShell where
  cwd : List Name
  tree : Tree Name Bytes

def pathOf (loc : List Name) : Str := renderPath (loc.map (·.val))

def stepsOf (path : Str) : List (Move Name) :=
  (path.splitOn '/').map fun seg =>
    if h : IsName seg then .down ⟨seg, h⟩ else if seg = "..".toList then .up else .stay

/-- The file that `mkdir` leaves in a directory. -/
def keepFile : Name := ⟨".keep".toList, by decide⟩

namespace FileShell

variable (s : FileShell)

def locate (path : Str) : List Name := walk (if path.head? = some '/' then [] else s.cwd) (stepsOf path)

open Classical in
noncomputable def next : ShellCommand → FileShell
  | .cd path => if s.tree.IsDir (s.locate path) then { s with cwd := s.locate path } else s
  | .echo text (some file) => { s with tree := s.tree.write (s.locate file) (toUtf8 (text ++ ['\n'])) }
  | .touch path =>
    if (s.tree.file (s.locate path)).isSome then s else { s with tree := s.tree.write (s.locate path) [] }
  | .mkdir path => { s with tree := s.tree.write (s.locate path ++ [keepFile]) [] }
  | .rm path => { s with tree := s.tree.remove (s.locate path) }
  | _ => s

noncomputable def after : Event → FileShell
  | .declared _ => s
  | .command cmd => s.next cmd

/-- The visible children of a directory, sorted: directories with a slash, and the files that are none. -/
structure Lists (t : Tree Name Bytes) (loc : List Name) (entries : List Str) : Prop where
  sorted : entries.Pairwise fun e e' => compare e e' = .lt
  mem_iff : ∀ e, e ∈ entries ↔ ∃ name : Name, name.val.head? ≠ some '.' ∧
    (t.IsDir (loc ++ [name]) ∧ e = name.val ++ "/".toList ∨
      ¬ t.IsDir (loc ++ [name]) ∧ (t.file (loc ++ [name])).isSome ∧ e = name.val)

def content (path : Str) : Str :=
  match s.tree.file (s.locate path) with
  | some data =>
    (fromUtf8 data).getD (println ("<binary file: ".toList ++ digits data.length ++ " bytes>".toList))
  | none => println ("cat: ".toList ++ path ++ ": No such file or directory".toList)

def removal (path : Str) : Str :=
  match s.tree.written (s.locate path), s.tree.base (s.locate path) with
  | some _, _ => []
  | none, some _ => println ("rm: ".toList ++ path ++ ": permission denied (read-only layer)".toList)
  | none, none => println ("rm: ".toList ++ path ++ ": No such file or directory".toList)

/-- What a command prints of the tree. -/
def Prints : ShellCommand → Str → Prop
  | .pwd, text => text = println (pathOf s.cwd)
  | .cd path, text =>
    s.tree.IsDir (s.locate path) ∧ text = [] ∨
      ¬ s.tree.IsDir (s.locate path) ∧ text = println ("cd: ".toList ++ path ++ ": No such directory".toList)
  | .ls path, text =>
    let loc := path.elim s.cwd s.locate
    ∃ entries, Lists s.tree loc entries ∧
      (text = entries.flatMap println ∧ (entries ≠ [] ∨ s.tree.IsDir loc) ∨
        entries = [] ∧ ¬ s.tree.IsDir loc ∧
          text = println ("ls: ".toList ++ pathOf loc ++ ": No such file or directory".toList))
  | .df, text => ∃ entries, Lists s.tree [] entries ∧ text =
      say "Filesystem   Type       Mounted on" ++ say "─────────────────────────────────────────────" ++
        say "rootfs       overlayfs  /          (in-memory)" ++
        say "tmpfs        overlayfs  /tmp       (in-memory)" ++
        println ('\n' :: digits entries.length ++ " top-level directories/files in root overlay".toList)
  | .cat path, text => text = s.content path
  | .rm path, text => text = s.removal path
  | .echo _ (some _), text | .touch _, text | .mkdir _, text => text = []
  | _, _ => True

end FileShell

/-! ## Paths of locations -/

section Paths

variable {loc loc' : List Name} {name : Name}

theorem isName_val {loc : List Name} : ∀ seg ∈ loc.map (·.val), IsName seg := by
  intro seg h
  obtain ⟨name, -, rfl⟩ := List.mem_map.1 h
  exact name.property

theorem pathOf_injective : pathOf.Injective := fun _ _ h =>
  (Subtype.val_injective.list_map) (renderPath_injective isName_val isName_val h)

/-- The segments of a location, each after a slash. -/
def segments (loc : List Name) : Str := loc.flatMap fun name => '/' :: name.val

theorem segments_append (loc loc' : List Name) : segments (loc ++ loc') = segments loc ++ segments loc' :=
  List.flatMap_append

theorem pathOf_cons (name : Name) (loc : List Name) : pathOf (name :: loc) = segments (name :: loc) := by
  rw [pathOf, renderPath, if_neg (by simp), List.flatMap_map]
  rfl

theorem trimEndSlashes_pathOf (loc : List Name) : OverlayMount.trimEndSlashes (pathOf loc) = segments loc := by
  rw [pathOf, trimEndSlashes_renderPath isName_val, List.flatMap_map]
  rfl

theorem dirPrefix_pathOf (loc : List Name) : OverlayMount.dirPrefix (pathOf loc) = segments loc ++ ['/'] := by
  rw [OverlayMount.dirPrefix, trimEndSlashes_pathOf]
  rfl

theorem splitOn_segments (loc : List Name) : (segments loc).splitOn '/' = [] :: loc.map (·.val) := by
  cases loc with
  | nil => rfl
  | cons name loc =>
    have hrest : (['/'].intercalate (name.val :: loc.map (·.val))).splitOn '/' = _ :=
      splitOn_renderPath (@isName_val (name :: loc))
    have hslash (rest : Str) : ('/' :: rest).splitOn '/' = [] :: rest.splitOn '/' :=
      List.splitOn_append_cons_self [] rest
    rw [← pathOf_cons, pathOf, List.map_cons, renderPath_cons, hslash, hrest]

/-- Below a directory other than the root is below its path. -/
theorem pathOf_below (hloc : loc ≠ []) : OverlayMount.dirPrefix (pathOf loc) <+: pathOf loc' ↔
    ∃ names ≠ [], loc' = loc ++ names := by
  rw [dirPrefix_pathOf]
  cases loc' with
  | nil =>
    constructor
    · intro h
      obtain ⟨name, loc, rfl⟩ := List.exists_cons_of_ne_nil hloc
      have hlen := h.length_le
      simp [segments, pathOf, renderPath] at hlen
    · rintro ⟨names, -, hnil⟩
      exact absurd (List.append_eq_nil_iff.1 hnil.symm).1 hloc
  | cons name' rest =>
    rw [pathOf_cons]
    constructor
    · rintro ⟨below, hbelow⟩
      have hsplit := congrArg (List.splitOn '/') hbelow
      rw [List.append_assoc, List.singleton_append, List.splitOn_append_cons_self, splitOn_segments,
        splitOn_segments, List.cons_append] at hsplit
      have hnames := (List.cons.inj hsplit).2
      obtain ⟨loc₁, names, hsum, hl, hn⟩ := List.map_eq_append_iff.1 hnames.symm
      refine ⟨names, ?_, ?_⟩
      · rintro rfl
        exact List.splitOn_ne_nil '/' below hn.symm
      · rw [hsum, Subtype.val_injective.list_map hl]
    · rintro ⟨names, hne, heq⟩
      obtain ⟨name, names, rfl⟩ := List.exists_cons_of_ne_nil hne
      refine ⟨name.val ++ segments names, ?_⟩
      rw [heq, segments_append, List.append_assoc]
      rfl

theorem pathOf_snoc (loc : List Name) (name : Name) :
    pathOf (loc ++ [name]) = segments loc ++ '/' :: name.val := by
  have hcons : pathOf (loc ++ [name]) = segments (loc ++ [name]) := by
    cases loc with
    | nil => exact pathOf_cons name []
    | cons first rest => exact pathOf_cons first (rest ++ [name])
  rw [hcons, segments_append]
  exact congrArg (segments loc ++ ·) (List.append_nil _)

theorem listPrefix_pathOf (loc : List Name) (name : Name) :
    OverlayMount.listPrefix (pathOf loc) ++ name.val = pathOf (loc ++ [name]) := by
  have hshown : OverlayMount.listPrefix (pathOf loc) = segments loc ++ ['/'] := by
    rw [OverlayMount.listPrefix]
    split
    · next hroot =>
      have hnil : loc = [] := pathOf_injective (hroot.trans rfl)
      rw [hnil]
      rfl
    · exact dirPrefix_pathOf loc
  rw [hshown, pathOf_snoc, List.append_assoc]
  rfl

theorem marker_pathOf (loc : List Name) :
    OverlayMount.trimEndSlashes (pathOf loc) ++ "/.keep".toList = pathOf (loc ++ [keepFile]) := by
  rw [trimEndSlashes_pathOf, pathOf_snoc]
  rfl

theorem map_stepsOf (path : Str) : (stepsOf path).map (Move.map (·.val)) = moves path := by
  rw [stepsOf, moves, List.map_map]
  refine List.map_congr_left fun seg hseg => ?_
  have hslash := notMem_of_mem_splitOn hseg
  rw [Function.comp_apply]
  by_cases h : IsName seg
  · rw [dif_pos h, segmentMove_name h]
    rfl
  · rw [dif_neg h]
    unfold segmentMove
    by_cases hup : seg = "..".toList
    · subst hup
      rfl
    · rw [if_neg hup, if_neg hup, if_pos]
      · rfl
      · by_contra hstay
        exact h ⟨fun he => hstay (.inl he), fun he => hstay (.inr he), hup, hslash⟩

theorem resolvePath_locate {k : Kernel} {s : FileShell} (h : k.cwd = pathOf s.cwd) (path : Str) :
    k.resolvePath path = pathOf (s.locate path) := by
  have hcwd : walk [] (moves k.cwd) = s.cwd.map (·.val) := by
    rw [h]
    exact walk_moves_renderPath isName_val
  rw [resolvePath_location, pathOf, FileShell.locate, walk_map, map_stepsOf, location, hcwd]
  split <;> rfl

end Paths

/-! ## The kernel's filesystem as a tree -/

theorem OverlayMount.read_eq (m : OverlayMount) (p : Str) :
    m.read p = ((m.upper.read p).or (m.readLower p)).elim (.error .notFound) .ok := by
  rw [OverlayMount.read, readLower]
  cases m.upper.read p with
  | some data => rfl
  | none => cases m.lower.reverse.findSome? fun l => l.read p <;> rfl

theorem OverlayMount.any_lower_exists (m : OverlayMount) (p : Str) :
    (m.lower.any fun l => l.exists p) = (m.readLower p).isSome := by
  rw [readLower, List.isSome_findSome?, List.any_reverse]
  simp only [MemLayer.exists_eq]

/-- The kernel holds the session: its working directory, and each layer at the paths of locations only. -/
structure Refines (k : Kernel) (s : FileShell) : Prop where
  cwd : k.cwd = pathOf s.cwd
  written : Represents pathOf k.rootFs.upper.read s.tree.written
  base : Represents pathOf k.rootFs.readLower s.tree.base

/-- The session in which the kernel root filesystem is mounted. -/
def FileShell.init : FileShell :=
  { cwd := [⟨"home".toList, by decide⟩, ⟨"root".toList, by decide⟩]
    tree := { base := fun loc => OverlayMount.kernelRootLayer.read (pathOf loc), written := fun _ => none } }

namespace Refines

variable {k : Kernel} {s : FileShell} {loc : List Name}

/-! ### What is found -/

theorem read (h : Refines k s) (loc : List Name) :
    k.rootFs.read (pathOf loc) = (s.tree.file loc).elim (.error .notFound) .ok := by
  rw [OverlayMount.read_eq, h.written.at_key, h.base.at_key, Tree.file]

theorem exists_iff (h : Refines k s) {p : Str} :
    k.rootFs.exists p = true ↔ ∃ loc, pathOf loc = p ∧ (s.tree.file loc).isSome := by
  have hfiles : Represents pathOf _ s.tree.file := h.written.or h.base
  have hread : k.rootFs.exists p = true ↔ ((k.rootFs.upper.read p).or (k.rootFs.readLower p)).isSome := by
    rw [OverlayMount.exists_iff_read, OverlayMount.read_eq]
    cases (k.rootFs.upper.read p).or (k.rootFs.readLower p) <;> simp
  rw [hread]
  constructor
  · intro hp
    obtain ⟨loc, rfl⟩ := hfiles.keys p hp
    exact ⟨loc, rfl, hfiles.at_key loc ▸ hp⟩
  · rintro ⟨loc, rfl, hloc⟩
    exact (hfiles.at_key loc).symm ▸ hloc

theorem exists_pathOf (h : Refines k s) : k.rootFs.exists (pathOf loc) = (s.tree.file loc).isSome := by
  rw [Bool.eq_iff_iff, h.exists_iff]
  constructor
  · rintro ⟨loc', he, hloc⟩
    rw [← pathOf_injective he]
    exact hloc
  · exact fun hloc => ⟨loc, rfl, hloc⟩

theorem isDir_iff (h : Refines k s) : k.rootFs.isDir (pathOf loc) = true ↔ s.tree.IsDir loc := by
  rw [OverlayMount.isDir_iff, Tree.IsDir]
  by_cases hloc : loc = []
  · exact iff_of_true (.inl (congrArg pathOf hloc)) (.inl hloc)
  · have hroot : pathOf loc ≠ "/".toList := fun he => hloc (pathOf_injective (he.trans rfl))
    simp only [hloc, hroot, false_or]
    constructor
    · rintro ⟨p, hp, hpre⟩
      obtain ⟨loc', rfl, hfile⟩ := h.exists_iff.1 hp
      obtain ⟨names, hne, rfl⟩ := (pathOf_below hloc).1 hpre
      exact ⟨names, hne, hfile⟩
    · rintro ⟨names, hne, hfile⟩
      exact ⟨pathOf (loc ++ names), h.exists_iff.2 ⟨_, rfl, hfile⟩, (pathOf_below hloc).2 ⟨names, hne, rfl⟩⟩

theorem lists (h : Refines k s) (loc : List Name) : FileShell.Lists s.tree loc (k.rootFs.list (pathOf loc)) := by
  refine ⟨Std.TreeSet.ordered_toList, fun e => ?_⟩
  have hdir (name : Name) : k.rootFs.isDir (OverlayMount.listPrefix (pathOf loc) ++ name.val) = true ↔
      s.tree.IsDir (loc ++ [name]) := by rw [listPrefix_pathOf, h.isDir_iff]
  have hfile (name : Name) : k.rootFs.exists (OverlayMount.listPrefix (pathOf loc) ++ name.val) = true ↔
      (s.tree.file (loc ++ [name])).isSome := by rw [listPrefix_pathOf, h.exists_pathOf]
  rw [OverlayMount.mem_list_child_iff]
  constructor
  · rintro ⟨c, hshown, he⟩
    have hname : IsName c.text :=
      ⟨c.nonempty, fun hd => c.visible (hd ▸ rfl), fun hd => c.visible (hd ▸ rfl), c.noSlash⟩
    refine ⟨⟨c.text, hname⟩, c.visible, ?_⟩
    by_cases hd : s.tree.IsDir (loc ++ [⟨c.text, hname⟩])
    · rw [if_pos ((hdir ⟨c.text, hname⟩).2 hd)] at he
      exact .inl ⟨hd, he⟩
    · have hnot := mt (hdir ⟨c.text, hname⟩).1 hd
      rw [if_neg hnot] at he
      exact .inr ⟨hd, (hfile ⟨c.text, hname⟩).1 (hshown.resolve_left hnot), he⟩
  · rintro ⟨name, hvisible, hshown⟩
    refine ⟨⟨name.val, name.property.ne_nil, name.property.slash, hvisible⟩, ?_⟩
    rcases hshown with ⟨hd, he⟩ | ⟨hd, hf, he⟩
    · exact ⟨.inl ((hdir name).2 hd), by rw [if_pos ((hdir name).2 hd), he]⟩
    · exact ⟨.inr ((hfile name).2 hf), by rw [if_neg (mt (hdir name).1 hd), he]⟩

/-! ### What a command does -/

theorem congr {k' : Kernel} (h : Refines k s) (hcwd : k'.cwd = k.cwd) (hfs : k'.rootFs = k.rootFs) :
    Refines k' s :=
  ⟨hcwd.trans h.cwd, hfs ▸ h.written, hfs ▸ h.base⟩

theorem write (h : Refines k s) (loc : List Name) (data : Bytes) :
    Refines { k with rootFs := k.rootFs.write (pathOf loc) data } { s with tree := s.tree.write loc data } := by
  have hread : (k.rootFs.write (pathOf loc) data).upper.read =
      Function.update k.rootFs.upper.read (pathOf loc) (some data) := by
    funext p
    rw [OverlayMount.write_upper_read, Function.update_apply]
    simp only [eq_comm]
  refine ⟨h.cwd, ?_, ?_⟩
  · rw [hread]
    exact h.written.update pathOf_injective loc (some data)
  · exact h.base

theorem remove (h : Refines k s) (loc : List Name) :
    Refines { k with rootFs := (k.rootFs.remove (pathOf loc)).1 } { s with tree := s.tree.remove loc } := by
  have hread : (k.rootFs.remove (pathOf loc)).1.upper.read =
      Function.update k.rootFs.upper.read (pathOf loc) none := by
    funext p
    rw [OverlayMount.remove_upper_read, Function.update_apply]
    simp only [eq_comm]
  refine ⟨h.cwd, ?_, ?_⟩
  · rw [hread]
    exact h.written.update pathOf_injective loc none
  · have hlower : (k.rootFs.remove (pathOf loc)).1.readLower = k.rootFs.readLower := by
      funext p
      rw [OverlayMount.readLower, OverlayMount.remove_lower, ← OverlayMount.readLower]
    rw [hlower]
    exact h.base

theorem execute (h : Refines k s) (cmd : ShellCommand) : Refines (k.execute cmd) (s.next cmd) := by
  cases cmd with
  | cd path =>
    rw [Kernel.execute, FileShell.next, resolvePath_locate h.cwd]
    by_cases hdir : s.tree.IsDir (s.locate path)
    · rw [if_pos hdir]
      rw [if_pos (h.isDir_iff.2 hdir)]
      exact ⟨rfl, h.written, h.base⟩
    · rw [if_neg hdir]
      rw [if_neg (mt h.isDir_iff.1 hdir)]
      exact h
  | echo text file =>
    cases file with
    | none => exact h
    | some file =>
      rw [Kernel.execute, FileShell.next, resolvePath_locate h.cwd]
      exact h.write (s.locate file) _
  | touch path =>
    rw [Kernel.execute, FileShell.next, resolvePath_locate h.cwd]
    rw [h.exists_pathOf]
    cases (s.tree.file (s.locate path)).isSome with
    | true => exact h
    | false => exact h.write (s.locate path) []
  | mkdir path =>
    rw [Kernel.execute, FileShell.next, resolvePath_locate h.cwd]
    rw [marker_pathOf]
    exact h.write (s.locate path ++ [keepFile]) []
  | rm path =>
    rw [Kernel.execute, FileShell.next, resolvePath_locate h.cwd]
    exact h.remove (s.locate path)
  | imagePull name tag | volumeCreate name | containerStop id =>
    refine h.congr ?_ ?_ <;>
      · simp only [Kernel.execute]
        split <;> rfl
  | _ => exact h.congr rfl rfl

theorem next (h : Refines k s) (e : Event) : Refines (World.next k e) (s.after e) := by
  cases e with
  | declared spec => exact h.congr rfl rfl
  | command cmd => exact h.execute cmd

theorem init : Refines .init .init := by
  have hbase : Kernel.init.rootFs.readLower = OverlayMount.kernelRootLayer.read := by
    funext p
    change [OverlayMount.kernelRootLayer].findSome? (fun l => l.read p) = _
    rw [List.findSome?_singleton]
  have hkeys : ∀ p ∈ OverlayMount.kernelRootLayer.files.keys, pathOf (walk [] (stepsOf p)) = p := by
    decide +kernel
  refine ⟨by decide +kernel, ⟨fun loc => ?_, fun p hp => ?_⟩, ?_⟩
  · exact Std.TreeMap.getElem?_emptyc
  · have hnone : Kernel.init.rootFs.upper.read p = none := Std.TreeMap.getElem?_emptyc
    rw [hnone] at hp
    cases hp
  · rw [hbase]
    refine ⟨fun loc => rfl, fun p hp => ⟨_, hkeys p ?_⟩⟩
    rw [Std.TreeMap.mem_keys, ← Std.TreeMap.isSome_getElem?_iff_mem]
    exact hp

theorem run (es : List Event) : Refines (es.foldl World.next .init) (es.foldl FileShell.after .init) :=
  List.foldl_rel init fun e _ _ _ h => h.next e

/-! ### What a command prints -/

theorem lsText_eq (k : Kernel) (path : Option Str) : k.lsText path =
    if k.rootFs.list (path.elim k.cwd k.resolvePath) = [] then
      if !k.rootFs.isDir (path.elim k.cwd k.resolvePath) then
        println ("ls: ".toList ++ path.elim k.cwd k.resolvePath ++ ": No such file or directory".toList)
      else []
    else (k.rootFs.list (path.elim k.cwd k.resolvePath)).flatMap println := by
  cases path <;> rfl

theorem prints_ls (h : Refines k s) (path : Option Str) : s.Prints (.ls path) (k.lsText path) := by
  have hdir : path.elim k.cwd k.resolvePath = pathOf (path.elim s.cwd s.locate) := by
    cases path with
    | none => exact h.cwd
    | some path => exact resolvePath_locate h.cwd path
  refine ⟨_, h.lists (path.elim s.cwd s.locate), ?_⟩
  rw [lsText_eq, hdir]
  by_cases hnil : k.rootFs.list (pathOf (path.elim s.cwd s.locate)) = []
  · rw [if_pos hnil, hnil]
    by_cases hd : s.tree.IsDir (path.elim s.cwd s.locate)
    · rw [h.isDir_iff.2 hd]
      exact .inl ⟨rfl, .inr hd⟩
    · rw [Bool.eq_false_iff.2 (mt h.isDir_iff.1 hd)]
      exact .inr ⟨rfl, hd, rfl⟩
  · rw [if_neg hnil]
    exact .inl ⟨rfl, .inl hnil⟩

theorem catText_eq (h : Refines k s) (path : Str) : k.catText path = s.content path := by
  unfold catText FileShell.content
  rw [resolvePath_locate h.cwd, h.read]
  cases s.tree.file (s.locate path) with
  | none => rfl
  | some data =>
    simp only [Option.elim_some]
    cases fromUtf8 data <;> rfl

theorem rmText_eq (h : Refines k s) (path : Str) : k.rmText path = s.removal path := by
  have hupper := h.written.at_key (s.locate path)
  have hlower := h.base.at_key (s.locate path)
  unfold rmText FileShell.removal
  rw [resolvePath_locate h.cwd, OverlayMount.remove_result, UpperLayer.exists_eq, hupper,
    OverlayMount.any_lower_exists, hlower]
  cases s.tree.written (s.locate path) with
  | some data => rfl
  | none => cases s.tree.base (s.locate path) <;> rfl

theorem prints (h : Refines k s) (pci : PciBus) (cmd : ShellCommand) : s.Prints cmd (k.output pci cmd) := by
  cases cmd with
  | pwd => exact congrArg println h.cwd
  | cd path =>
    change s.Prints (.cd path) (k.cdText path)
    unfold cdText
    rw [resolvePath_locate h.cwd]
    by_cases hdir : s.tree.IsDir (s.locate path)
    · exact .inl ⟨hdir, if_pos (h.isDir_iff.2 hdir)⟩
    · exact .inr ⟨hdir, if_neg (mt h.isDir_iff.1 hdir)⟩
  | ls path => exact h.prints_ls path
  | df => exact ⟨_, h.lists [], rfl⟩
  | cat path => exact h.catText_eq path
  | rm path => exact h.rmText_eq path
  | echo text file =>
    cases file with
    | none => trivial
    | some file => rfl
  | touch path | mkdir path => rfl
  | _ => trivial

end Refines

/-- In every run of boot starts and commands, the kernel state is that of a session on a tree of files, and what
each command prints is what the tree says. -/
theorem fileShell_exact (es : List Event) :
    Refines (es.foldl World.next .init) (es.foldl FileShell.after .init) ∧
      ∀ pci cmd, (es.foldl FileShell.after .init).Prints cmd ((es.foldl World.next .init).output pci cmd) :=
  ⟨.run es, (Refines.run es).prints⟩

end OciKernel
