import OciKernel.Host.Listing
import OciKernel.Lib.Shelf

/-!
# Host.Registries

The image and volume registries of `host/getty.rs` over whole sessions. Both are shelves: an entry is put
once and taken out again, and nothing else touches them.

* `imageStore_run`, `volumeStore_run`: what is in them, told from the commands alone.
* `registries_exact`: `image list` shows it, and each reply tells whether the entry was there.
-/

namespace OciKernel

open Text Shelf

/-- The name and the tag of each image that is listed. -/
def readImages (text : Str) : List (Str × Str) := (readListing text).map fun row => (row.1, row.2.2)

def imageOp : Event → Option (Op (Str × Str))
  | .command (.imagePull name tag) => some (.put (name, tag))
  | .command (.imageRemove name tag) => some (.take (name, tag))
  | _ => none

def volumeOp : Event → Option (Op Str)
  | .command (.volumeCreate name) => some (.put name)
  | .command (.volumeRemove name) => some (.take name)
  | _ => none

/-- The images pulled and not removed since, in the order they came in. -/
def images (es : List Event) : List (Str × Str) := held (es.filterMap imageOp)

def volumes (es : List Event) : List Str := held (es.filterMap volumeOp)

theorem stores_next (k : Kernel) (e : Event) :
    (World.next k e).imageStore = (imageOp e).elim k.imageStore (step k.imageStore) ∧
      (World.next k e).volumeStore = (volumeOp e).elim k.volumeStore (step k.volumeStore) := by
  cases e with
  | declared spec => exact ⟨rfl, rfl⟩
  | command cmd =>
    cases cmd with
    | imagePull name tag =>
      simp only [World.next, Kernel.execute, imageOp, volumeOp, Option.elim_some, Option.elim_none, step,
        List.contains_iff_mem]
      split <;> exact ⟨rfl, rfl⟩
    | volumeCreate name =>
      simp only [World.next, Kernel.execute, imageOp, volumeOp, Option.elim_some, Option.elim_none, step,
        List.contains_iff_mem]
      split <;> exact ⟨rfl, rfl⟩
    | cd path | touch path =>
      simp only [World.next, Kernel.execute]
      split <;> exact ⟨rfl, rfl⟩
    | echo text file => cases file <;> exact ⟨rfl, rfl⟩
    | containerStop id =>
      simp only [World.next, Kernel.execute]
      split <;> exact ⟨rfl, rfl⟩
    | _ => exact ⟨rfl, rfl⟩

theorem stores_run (k : Kernel) (es : List Event) :
    (es.foldl World.next k).imageStore = (es.filterMap imageOp).foldl step k.imageStore ∧
      (es.foldl World.next k).volumeStore = (es.filterMap volumeOp).foldl step k.volumeStore := by
  induction es generalizing k with
  | nil => exact ⟨rfl, rfl⟩
  | cons e es ih =>
    obtain ⟨himage, hvolume⟩ := ih (World.next k e)
    obtain ⟨himage₁, hvolume₁⟩ := stores_next k e
    refine ⟨?_, ?_⟩
    · rw [List.foldl_cons, himage, himage₁, List.filterMap_cons]
      cases imageOp e <;> rfl
    · rw [List.foldl_cons, hvolume, hvolume₁, List.filterMap_cons]
      cases volumeOp e <;> rfl

theorem imageStore_run (es : List Event) : (es.foldl World.next .init).imageStore = images es :=
  (stores_run .init es).1.trans (foldl_step _)

theorem volumeStore_run (es : List Event) : (es.foldl World.next .init).volumeStore = volumes es :=
  (stores_run .init es).2.trans (foldl_step _)

/-! ## What is printed -/

/-- No blanks and no line breaks. -/
def Solid (s : Str) : Prop := ∀ c ∈ s, isWhitespace c = false

theorem Solid.notMem {s : Str} (h : Solid s) {c : Char} (hc : isWhitespace c = true) : c ∉ s :=
  fun hmem => Bool.false_ne_true ((h c hmem).symm.trans hc)

/-- A row of the list of images. -/
def imageRow (image : Str × Str) : Str := cell 19 image.1 ++ image.2

theorem readRow_imageRow {image : Str × Str} (hname : Solid image.1) (htag : Solid image.2) :
    readRow (imageRow image) = (image.1, [], image.2) :=
  readRow_pair (hname.notMem rfl) (htag.notMem rfl)

theorem imageRow_line {image : Str × Str} (hname : Solid image.1) (htag : Solid image.2) :
    '\n' ∉ imageRow image ∧ (imageRow image).getLast? ≠ some '\r' := by
  have hmem : ∀ c, isWhitespace c = true → c ≠ ' ' → c ∉ imageRow image := by
    intro c hc hne h
    rcases List.mem_append.1 h with h | h
    · exact (mem_cell h).elim (hname.notMem hc) hne
    · exact htag.notMem hc h
  exact ⟨hmem '\n' rfl (by decide), fun h => hmem '\r' rfl (by decide) (List.mem_of_getLast? h)⟩

theorem imageHeading :
    ('\n' ∉ "REPOSITORY           TAG".toList ∧ "REPOSITORY           TAG".toList.getLast? ≠ some '\r') ∧
      '\n' ∉ "───────────────────  ──────────".toList ∧
        "───────────────────  ──────────".toList.getLast? ≠ some '\r' := by
  decide +kernel

theorem readImages_imageListText {k : Kernel} (h : ∀ image ∈ k.imageStore, Solid image.1 ∧ Solid image.2) :
    readImages k.imageListText = k.imageStore := by
  unfold Kernel.imageListText
  split
  · next hnil =>
    rw [hnil]
    rfl
  · have hrows : ∀ l ∈ k.imageStore.map imageRow, '\n' ∉ l ∧ l.getLast? ≠ some '\r' := by
      intro l hl
      obtain ⟨image, himage, rfl⟩ := List.mem_map.1 hl
      exact imageRow_line (h image himage).1 (h image himage).2
    have hlines := lines_println (List.forall_mem_cons.2 ⟨imageHeading.1,
      List.forall_mem_cons.2 ⟨imageHeading.2, hrows⟩⟩)
    rw [List.flatMap_cons, List.flatMap_cons, List.flatMap_map, ← List.append_assoc] at hlines
    have htext : k.imageStore.flatMap (fun image => println (cell 19 image.1 ++ image.2)) =
        k.imageStore.flatMap fun image => println (imageRow image) := rfl
    rw [readImages, readListing, say, say, htext, hlines, List.drop_succ_cons, List.drop_succ_cons,
      List.drop_zero, List.map_map, List.map_map]
    refine (List.map_congr_left fun image himage => ?_).trans (List.map_id _)
    exact congrArg (fun row => (row.1, row.2.2)) (readRow_imageRow (h image himage).1 (h image himage).2)

section Replies

variable (k : Kernel)

/-- `retain` takes something away exactly when it is there. -/
theorem length_filter_ne_lt {α : Type} [DecidableEq α] {a : α} {l : List α} :
    (l.filter (· ≠ a)).length < l.length ↔ a ∈ l := by
  rw [List.length_filter_lt_length_iff_exists]
  simp

theorem Kernel.imagePullText_eq (name tag : Str) : k.imagePullText name tag =
    println ("Pulling ".toList ++ nameTag name tag ++ "...".toList) ++
      say "  (M2: HTTPS + OCI registry pull not yet wired)" ++
      if (name, tag) ∈ k.imageStore then println (nameTag name tag ++ " already present.".toList)
      else println ("Cached ".toList ++ nameTag name tag ++ " locally.".toList) := by
  unfold imagePullText
  by_cases h : (name, tag) ∈ k.imageStore
  · rw [if_pos h, if_neg (by simp [h])]
  · rw [if_neg h, if_pos (by simp [h])]

theorem Kernel.imageRemoveText_eq (name tag : Str) : k.imageRemoveText name tag =
    if (name, tag) ∈ k.imageStore then println ("Removed ".toList ++ nameTag name tag ++ ".".toList)
    else println (nameTag name tag ++ " not found.".toList) := by
  unfold imageRemoveText
  simp only [length_filter_ne_lt]

theorem Kernel.volumeCreateText_eq (name : Str) : k.volumeCreateText name =
    volumeText name (if name ∈ k.volumeStore then "already exists." else "created.") := by
  unfold volumeCreateText
  simp only [List.contains_iff_mem]
  split <;> rfl

theorem Kernel.volumeRemoveText_eq (name : Str) : k.volumeRemoveText name =
    volumeText name (if name ∈ k.volumeStore then "removed." else "not found.") := by
  unfold volumeRemoveText
  simp only [length_filter_ne_lt]
  split <;> rfl

end Replies

/-- Whatever is pulled in a session was read from a line. -/
theorem solid_of_mem_images {declared : List ContainerSpec} {cmds : List ShellCommand}
    (hcmds : ∀ cmd ∈ cmds, ∃ line, ShellCommand.parse line = .ok cmd) {es : List Event}
    (hes : es ⊆ World.session declared cmds) {image : Str × Str} (h : image ∈ images es) :
    Solid image.1 ∧ Solid image.2 := by
  obtain ⟨e, he, hop⟩ := List.mem_filterMap.1 (put_mem_of_held h)
  rcases List.mem_append.1 (hes he) with he | he
  · obtain ⟨spec, -, rfl⟩ := List.mem_map.1 he
    cases hop
  · obtain ⟨cmd, hcmd, rfl⟩ := List.mem_map.1 he
    obtain ⟨line, hline⟩ := hcmds cmd hcmd
    have htypeable := ShellCommand.typeable_of_parse hline
    cases cmd with
    | imagePull name tag =>
      cases hop
      exact ⟨fun c hc => (htypeable.name c hc).2, htypeable.tag⟩
    | _ => cases hop

/-- In every state of a session `image list` shows the images pulled and not removed since, in the order
they came in; and each reply about an image or a volume tells whether it is there. -/
theorem registries_exact (pci : PciBus) (declared : List ContainerSpec) (cmds : List ShellCommand)
    (hcmds : ∀ cmd ∈ cmds, ∃ line, ShellCommand.parse line = .ok cmd) {es : List Event}
    (hes : es <+: World.session declared cmds) :
    readImages ((es.foldl World.next .init).output pci .imageList) = images es ∧
      (∀ name tag, (es.foldl World.next .init).output pci (.imagePull name tag) =
        println ("Pulling ".toList ++ Kernel.nameTag name tag ++ "...".toList) ++
          say "  (M2: HTTPS + OCI registry pull not yet wired)" ++
          if (name, tag) ∈ images es then println (Kernel.nameTag name tag ++ " already present.".toList)
          else println ("Cached ".toList ++ Kernel.nameTag name tag ++ " locally.".toList)) ∧
      (∀ name tag, (es.foldl World.next .init).output pci (.imageRemove name tag) =
        if (name, tag) ∈ images es then println ("Removed ".toList ++ Kernel.nameTag name tag ++ ".".toList)
        else println (Kernel.nameTag name tag ++ " not found.".toList)) ∧
      (∀ name, (es.foldl World.next .init).output pci (.volumeCreate name) =
        Kernel.volumeText name (if name ∈ volumes es then "already exists." else "created.")) ∧
      ∀ name, (es.foldl World.next .init).output pci (.volumeRemove name) =
        Kernel.volumeText name (if name ∈ volumes es then "removed." else "not found.") := by
  have himages := imageStore_run es
  have hvolumes := volumeStore_run es
  generalize es.foldl World.next .init = k at himages hvolumes
  rw [← himages, ← hvolumes]
  have hsolid : ∀ image ∈ k.imageStore, Solid image.1 ∧ Solid image.2 := by
    intro image himage
    rw [himages] at himage
    exact solid_of_mem_images hcmds hes.subset himage
  exact ⟨readImages_imageListText hsolid, k.imagePullText_eq, k.imageRemoveText_eq,
    k.volumeCreateText_eq, k.volumeRemoveText_eq⟩

/-- An image that is pulled again after it was removed comes last. -/
theorem registries_exact_again :
    readImages (((World.session [] [.imagePull "a".toList "1".toList, .imagePull "b".toList [],
      .imageRemove "a".toList "1".toList, .imagePull "a".toList "1".toList]).foldl World.next .init).output
        .empty .imageList) = [("b".toList, []), ("a".toList, "1".toList)] := by
  have hcmds : ∀ cmd ∈ [ShellCommand.imagePull "a".toList "1".toList, .imagePull "b".toList [],
      .imageRemove "a".toList "1".toList, .imagePull "a".toList "1".toList],
      ∃ line, ShellCommand.parse line = .ok cmd := by
    refine List.forall_mem_cons.2 ⟨⟨"image pull a:1".toList, by decide +kernel⟩, ?_⟩
    refine List.forall_mem_cons.2 ⟨⟨"image pull b:".toList, by decide +kernel⟩, ?_⟩
    refine List.forall_mem_cons.2 ⟨⟨"image rm a:1".toList, by decide +kernel⟩, ?_⟩
    exact List.forall_mem_singleton.2 ⟨"image pull a:1".toList, by decide +kernel⟩
  refine (registries_exact .empty [] _ hcmds (List.prefix_refl _)).1.trans ?_
  decide +kernel

end OciKernel
