import OciKernel.Host.ShellFs
import OciKernel.Lib.Path

/-!
# Host.Paths

Where the paths that the shell takes lead to. A path is a list of moves, one for each piece between
slashes, and `resolve_path` writes out the location that they lead to.

* `location`: where a path leads from the working directory; `resolvePath_location`.
* `walk_moves_renderPath`: a location is found under the path that is written for it.
* `Canonical`: what `resolve_path` returns; `key`: the path that a command uses in the filesystem.
* `resolvePath_spec`: resolving is canonical and compositional, and spellings of one location are one
  key.
-/

namespace OciKernel

open Text Path

/-- `/`, or an absolute path without an empty, `.` or `..` segment and without a slash at its end. -/
def Canonical (path : Str) : Prop :=
  path = "/".toList ∨ (∃ rest, path = '/' :: rest ∧
    ∀ seg ∈ rest.splitOn '/', seg ≠ [] ∧ seg ≠ ".".toList ∧ seg ≠ "..".toList) ∧
      path.getLast? ≠ some '/'

/-- The commands that take a path in the filesystem. -/
inductive FileCommand where
  | ls
  | cd
  | cat
  | echo (text : Str)
  | touch
  | mkdir
  | rm

def FileCommand.at (path : Str) : FileCommand → ShellCommand
  | ls => .ls (some path)
  | cd => .cd path
  | cat => .cat path
  | echo text => .echo text (some path)
  | touch => .touch path
  | mkdir => .mkdir path
  | rm => .rm path

/-- What a command reads of the filesystem in order to print it. -/
inductive Seen where
  | nothing
  | file (data : Except FsError Bytes)
  | dir (entries : List Str) (isDir : Bool)

namespace Kernel

def sees (k : Kernel) : ShellCommand → Seen
  | .cat path => .file (k.rootFs.read (k.resolvePath path))
  | .ls path =>
    let dir := match path with
      | some path => k.resolvePath path
      | none => k.cwd
    .dir (k.rootFs.list dir) (k.rootFs.isDir dir)
  | _ => .nothing

/-- The path that a command reads, writes or removes. -/
def key (k : Kernel) : ShellCommand → Option Str
  | .ls none => some k.cwd
  | .ls (some path) | .cd path | .cat path | .echo _ (some path) | .touch path | .rm path =>
    some (k.resolvePath path)
  | .mkdir path => some (OverlayMount.trimEndSlashes (k.resolvePath path) ++ "/.keep".toList)
  | _ => none

/-! ## Moves -/

def segmentMove (seg : Str) : Move Str :=
  if seg = [] ∨ seg = ".".toList then .stay else if seg = "..".toList then .up else .down seg

def moves (path : Str) : List (Move Str) := (path.splitOn '/').map segmentMove

/-- Where a path leads. -/
def location (k : Kernel) (path : Str) : List Str :=
  walk (if path.head? = some '/' then [] else walk [] (moves k.cwd)) (moves path)

/-- What can stand between two slashes of a canonical path. -/
structure IsName (seg : Str) : Prop where
  ne_nil : seg ≠ []
  ne_dot : seg ≠ ".".toList
  ne_dotDot : seg ≠ "..".toList
  slash : '/' ∉ seg

theorem segmentMove_name {seg : Str} (h : IsName seg) : segmentMove seg = .down seg := by
  rw [segmentMove, if_neg (by simp only [h.ne_nil, h.ne_dot, or_self, not_false_eq_true]),
    if_neg h.ne_dotDot]

theorem isName_of_segmentMove {seg name : Str} (hslash : '/' ∉ seg)
    (h : segmentMove seg = .down name) : IsName name := by
  unfold segmentMove at h
  split_ifs at h with hstay hup
  cases h
  exact ⟨fun he => hstay (.inl he), fun he => hstay (.inr he), hup, hslash⟩

theorem pushSegment_eq (parts : List Str) (seg : Str) :
    pushSegment parts seg = move parts (segmentMove seg) := by
  unfold pushSegment segmentMove
  split_ifs <;> rfl

theorem foldl_pushSegment (segs parts : List Str) :
    segs.foldl pushSegment parts = walk parts (segs.map segmentMove) := by
  rw [walk, List.foldl_map]
  exact congrFun (congrArg (fun f => List.foldl f parts)
    (funext fun parts => funext fun seg => pushSegment_eq parts seg)) segs

theorem moves_append (p q : Str) : moves (p ++ '/' :: q) = moves p ++ moves q := by
  rw [moves, List.splitOn_append_cons_self, List.map_append]
  rfl

theorem moves_slash (q : Str) : moves ('/' :: q) = .stay :: moves q := moves_append [] q

theorem moves_dotDot (q : Str) : moves ("../".toList ++ q) = .up :: moves q := moves_append "..".toList q

theorem isName_of_mem_walk {path name : Str} (h : name ∈ walk [] (moves path)) : IsName name := by
  have hmem := (mem_walk h).resolve_left List.not_mem_nil
  obtain ⟨seg, hseg, hmove⟩ := List.mem_map.1 hmem
  exact isName_of_segmentMove (notMem_of_mem_splitOn hseg) hmove

/-! ## Locations -/

variable {k : Kernel} {p q : Str} {loc : List Str}

theorem location_absolute (h : p.head? = some '/') : k.location p = walk [] (moves p) := by
  rw [location, if_pos h]

theorem location_relative (h : p.head? ≠ some '/') :
    k.location p = walk [] (moves (k.cwd ++ '/' :: p)) := by
  rw [location, if_neg h, moves_append, walk_append]

theorem resolvePath_location (k : Kernel) (path : Str) :
    k.resolvePath path = renderPath (k.location path) := by
  rw [resolvePath_eq, foldl_pushSegment]
  by_cases h : path.head? = some '/'
  · rw [if_pos h, location_absolute h]
    rfl
  · rw [if_neg h, location_relative h, List.append_assoc]
    rfl

theorem isName_location (k : Kernel) (p : Str) : ∀ s ∈ k.location p, IsName s := by
  intro s h
  by_cases hp : p.head? = some '/'
  · rw [location_absolute hp] at h
    exact isName_of_mem_walk h
  · rw [location_relative hp] at h
    exact isName_of_mem_walk h

theorem renderPath_cons (seg : Str) (segs : List Str) :
    renderPath (seg :: segs) = '/' :: ['/'].intercalate (seg :: segs) := by
  have hflat : ∀ seg : Str, (seg :: segs).flatMap (fun s => '/' :: s) =
      '/' :: ['/'].intercalate (seg :: segs) := by
    induction segs with
    | nil => simp
    | cons seg' segs ih =>
      intro seg
      rw [List.flatMap_cons, ih, List.intercalate_cons_cons, List.append_assoc]
      rfl
  rw [renderPath, if_neg (by simp), hflat]

theorem splitOn_renderPath {seg : Str} {segs : List Str} (h : ∀ s ∈ seg :: segs, IsName s) :
    (['/'].intercalate (seg :: segs)).splitOn '/' = seg :: segs :=
  List.splitOn_intercalate '/' (fun s hs => (h s hs).slash) (by simp)

/-- What is written for a location leads there. -/
theorem walk_moves_renderPath (h : ∀ s ∈ loc, IsName s) : walk [] (moves (renderPath loc)) = loc := by
  cases loc with
  | nil => rfl
  | cons seg segs =>
    have hdown : (seg :: segs).map segmentMove = (seg :: segs).map .down :=
      List.map_congr_left fun s hs => segmentMove_name (h s hs)
    rw [renderPath_cons, moves_slash, moves, splitOn_renderPath h, hdown, walk_cons, walk_down]
    rfl

theorem renderPath_injective {loc' : List Str} (h : ∀ s ∈ loc, IsName s) (h' : ∀ s ∈ loc', IsName s)
    (he : renderPath loc = renderPath loc') : loc = loc' := by
  rw [← walk_moves_renderPath h, he, walk_moves_renderPath h']

theorem canonical_renderPath (h : ∀ s ∈ loc, IsName s) : Canonical (renderPath loc) := by
  cases loc with
  | nil => exact .inl rfl
  | cons seg segs =>
    refine .inr ⟨⟨_, renderPath_cons seg segs, ?_⟩, ?_⟩
    · intro s hs
      rw [splitOn_renderPath h] at hs
      exact ⟨(h s hs).ne_nil, (h s hs).ne_dot, (h s hs).ne_dotDot⟩
    · rcases renderPath_getLast? (fun s hs => ⟨(h s hs).ne_nil, (h s hs).slash⟩) with hlast | hroot
      · exact hlast
      · rw [renderPath_cons] at hroot
        have hempty : ['/'].intercalate (seg :: segs) = [] := (List.cons.inj hroot).2
        have hsplit := splitOn_renderPath h
        rw [hempty, List.splitOn_nil] at hsplit
        cases hsplit
        exact absurd rfl (h [] (List.mem_cons_self ..)).ne_nil

/-! ## The laws -/

theorem location_resolvePath (k k' : Kernel) (p : Str) :
    k'.location (k.resolvePath p) = k.location p := by
  have hhead : (renderPath (k.location p)).head? = some '/' := by
    cases k.location p with
    | nil => rfl
    | cons seg segs => rw [renderPath_cons, List.head?_cons]
  rw [resolvePath_location, location_absolute hhead]
  exact walk_moves_renderPath (k.isName_location p)

theorem location_append (hp : p ≠ []) (hq : q.head? ≠ some '/') :
    k.location (p ++ '/' :: q) = { k with cwd := k.resolvePath p }.location q := by
  have hcwd : walk [] (moves (k.resolvePath p)) = k.location p := by
    rw [resolvePath_location]
    exact walk_moves_renderPath (k.isName_location p)
  have hright : { k with cwd := k.resolvePath p }.location q = walk (k.location p) (moves q) := by
    rw [location, if_neg hq, hcwd]
  have hhead : (p ++ '/' :: q).head? = p.head? := List.head?_append_of_ne_nil p hp
  rw [hright, location, location, hhead, moves_append, walk_append]

theorem location_dotDot (k : Kernel) (n : Nat) (q : Str) :
    k.location ('/' :: (List.replicate n "../".toList).flatten ++ q) = k.location ('/' :: q) := by
  have hmoves : moves ((List.replicate n "../".toList).flatten ++ q) =
      List.replicate n .up ++ moves q := by
    induction n with
    | zero => rfl
    | succ n ih =>
      rw [List.replicate_succ, List.flatten_cons, List.append_assoc, moves_dotDot, ih,
        List.replicate_succ, List.cons_append]
  rw [location_absolute (by rfl), location_absolute (by rfl), List.cons_append, moves_slash,
    moves_slash, walk_cons, walk_cons, hmoves]
  exact walk_up n (moves q)

/-! ## Sessions -/

theorem execute_cwd (k : Kernel) (cmd : ShellCommand) :
    (k.execute cmd).cwd = k.cwd ∨ ∃ path, (k.execute cmd).cwd = k.resolvePath path := by
  cases cmd with
  | cd path =>
    simp only [execute]
    split
    · exact .inr ⟨path, rfl⟩
    · exact .inl rfl
  | echo text file => cases file <;> exact .inl rfl
  | touch path =>
    simp only [execute]
    split <;> exact .inl rfl
  | containerStop id =>
    simp only [execute]
    split <;> exact .inl rfl
  | imagePull name tag =>
    simp only [execute]
    split <;> exact .inl rfl
  | volumeCreate name =>
    simp only [execute]
    split <;> exact .inl rfl
  | _ => exact .inl rfl

theorem canonical_resolvePath (k : Kernel) (p : Str) : Canonical (k.resolvePath p) := by
  rw [resolvePath_location]
  exact canonical_renderPath (k.isName_location p)

theorem canonical_execute (h : Canonical k.cwd) (cmd : ShellCommand) : Canonical (k.execute cmd).cwd := by
  rcases k.execute_cwd cmd with he | ⟨path, he⟩
  · rw [he]
    exact h
  · rw [he]
    exact k.canonical_resolvePath path

theorem canonical_init : Canonical init.cwd :=
  .inr ⟨⟨"home/root".toList, rfl, by decide⟩, by decide⟩

theorem canonical_session (cmds : List ShellCommand) : Canonical (cmds.foldl execute init).cwd := by
  suffices ∀ k : Kernel, Canonical k.cwd → Canonical (cmds.foldl execute k).cwd from
    this init canonical_init
  induction cmds with
  | nil => exact fun _ h => h
  | cons cmd cmds ih => exact fun k h => ih (k.execute cmd) (canonical_execute h cmd)

/-! ## Spellings -/

theorem resolvePath_eq_iff : k.resolvePath p = k.resolvePath q ↔ k.location p = k.location q := by
  rw [resolvePath_location, resolvePath_location]
  exact ⟨renderPath_injective (k.isName_location p) (k.isName_location q), congrArg renderPath⟩

theorem trimEndSlashes_renderPath (h : ∀ s ∈ loc, IsName s) :
    OverlayMount.trimEndSlashes (renderPath loc) = loc.flatMap fun s => '/' :: s := by
  rcases renderPath_getLast? fun s hs => ⟨(h s hs).ne_nil, (h s hs).slash⟩ with hlast | hroot
  · have hloc : loc ≠ [] := by
      rintro rfl
      exact hlast rfl
    have hrender : renderPath loc = loc.flatMap fun s => '/' :: s := if_neg hloc
    rw [hrender] at hlast ⊢
    rw [OverlayMount.trimEndSlashes, List.rdropWhile_eq_self_iff]
    intro hne hslash
    rw [List.getLast?_eq_some_getLast hne] at hlast
    exact hlast (congrArg some (by simpa using hslash))
  · cases loc with
    | nil => rfl
    | cons seg segs =>
      have hempty : ∀ s ∈ ([] : List Str), IsName s := List.forall_mem_nil _
      have hnil : [] = seg :: segs := renderPath_injective hempty h hroot.symm
      cases hnil

/-- The marker file of a directory belongs to one location. -/
theorem marker_inj {loc' : List Str} (h : ∀ s ∈ loc, IsName s) (h' : ∀ s ∈ loc', IsName s) :
    OverlayMount.trimEndSlashes (renderPath loc) ++ "/.keep".toList =
      OverlayMount.trimEndSlashes (renderPath loc') ++ "/.keep".toList ↔ loc = loc' := by
  constructor
  · intro he
    have hflat := List.append_cancel_right he
    rw [trimEndSlashes_renderPath h, trimEndSlashes_renderPath h'] at hflat
    refine renderPath_injective h h' ?_
    cases loc with
    | nil =>
      cases loc' with
      | nil => rfl
      | cons seg segs => cases hflat
    | cons seg segs =>
      cases loc' with
      | nil => cases hflat
      | cons seg' segs' => exact hflat
  · rintro rfl
    rfl

/-- Two spellings give a command the same key iff they lead to the same location. -/
theorem key_eq_iff (k : Kernel) (c : FileCommand) (p q : Str) :
    k.key (c.at p) = k.key (c.at q) ↔ k.location p = k.location q := by
  cases c with
  | mkdir =>
    rw [FileCommand.at, FileCommand.at, key, key, Option.some_inj, resolvePath_location,
      resolvePath_location]
    exact marker_inj (k.isName_location p) (k.isName_location q)
  | _ => rw [FileCommand.at, FileCommand.at, key, key, Option.some_inj, resolvePath_eq_iff]

/-- A command does not tell two spellings of a location apart. -/
theorem execute_spelling (c : FileCommand) (h : k.location p = k.location q) :
    k.execute (c.at p) = k.execute (c.at q) ∧ k.sees (c.at p) = k.sees (c.at q) := by
  have hpath := resolvePath_eq_iff.2 h
  cases c <;> simp only [FileCommand.at, execute, sees, hpath, and_self]

/-- Resolving gives a canonical path and leaves it as it is; a path can be resolved in parts; `..` stays
in the root. So the working directory of a session is canonical, and what a command does depends on the
location that its path leads to. -/
theorem resolvePath_spec :
    (∀ (k : Kernel) (path : Str), Canonical (k.resolvePath path)) ∧
    (∀ (k k' : Kernel) (path : Str), k'.resolvePath (k.resolvePath path) = k.resolvePath path) ∧
    (∀ (k : Kernel) (p q : Str), p ≠ [] → q.head? ≠ some '/' →
      k.resolvePath (p ++ '/' :: q) = { k with cwd := k.resolvePath p }.resolvePath q) ∧
    (∀ (k : Kernel) (n : Nat) (q : Str),
      k.resolvePath ('/' :: (List.replicate n "../".toList).flatten ++ q) = k.resolvePath ('/' :: q)) ∧
    (∀ cmds : List ShellCommand, Canonical (cmds.foldl execute init).cwd) ∧
    (∀ (k : Kernel) (c : FileCommand) (p q : Str),
      (k.key (c.at p) = k.key (c.at q) ↔ k.location p = k.location q) ∧
      (k.location p = k.location q →
        k.execute (c.at p) = k.execute (c.at q) ∧ k.sees (c.at p) = k.sees (c.at q))) := by
  refine ⟨canonical_resolvePath, fun k k' path => ?_, fun k p q hp hq => ?_, fun k n q => ?_,
    canonical_session, fun k c p q => ⟨k.key_eq_iff c p q, execute_spelling c⟩⟩
  · rw [resolvePath_location, location_resolvePath, ← resolvePath_location]
  · rw [resolvePath_location, location_append hp hq, ← resolvePath_location]
  · rw [resolvePath_location, location_dotDot, ← resolvePath_location]

end Kernel

end OciKernel
