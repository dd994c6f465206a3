import OciKernel.Config.Compose

/-!
# Config.Lines

What the parser sees of a text: the lines that are neither blank nor comments, each with its indent and
its trimmed text.

* `fromYaml_shown`: the other lines may stand anywhere.
* `stepLine`: what a line that is seen does, by its indent.
-/

namespace OciKernel

open Text

/-- Neither blank nor a comment. -/
def Shown (rawLine : Str) : Prop := ¬ (trim rawLine = [] ∨ (trim rawLine).head? = some '#')

instance : DecidablePred Shown := fun _ => inferInstanceAs (Decidable (¬ _))

structure Line where
  indent : Nat
  text : Str
deriving DecidableEq, Repr

def Line.ofRaw (rawLine : Str) : Line := ⟨leadingSpaces rawLine, trim rawLine⟩

def shownLines (yaml : Str) : List Line := ((lines yaml).filter Shown).map Line.ofRaw

namespace ParseState

theorem parseLine_of_not_shown (st : ParseState) {rawLine : Str} (h : ¬ Shown rawLine) :
    st.parseLine rawLine = pure st := if_pos (not_not.1 h)

/-- A round of the loop, for a line that is not skipped. -/
def stepLine (st : ParseState) (l : Line) : Parse ParseState :=
  if l.indent = 0 then do
    let st ← ExceptT.mk (some st.flushContainer)
    pure { st with inContainers := l.text = "containers:".toList, inPorts := false,
                   inResources := false }
  else if !st.inContainers then pure st
  else if l.indent = 2 ∧ startsWith l.text "- image:" then do
    let st ← ExceptT.mk (some st.flushContainer)
    pure { st with inPorts := false, inResources := false,
                   current := some { ContainerBuilder.new with
                     image := some (valueAfterColon l.text) } }
  else ExceptT.lift (st.bodyLine l.indent l.text)

theorem parseLine_of_shown (st : ParseState) {rawLine : Str} (h : Shown rawLine) :
    st.parseLine rawLine = st.stepLine (.ofRaw rawLine) := if_neg h

/-- Lines that are skipped make no difference. -/
theorem foldlM_shown (ls : List Str) (st : ParseState) :
    ls.foldlM parseLine st = (ls.filter Shown).foldlM parseLine st := by
  rw [List.foldlM_filter]
  refine congrArg (fun step => ls.foldlM step st) (funext fun st => funext fun rawLine => ?_)
  split
  · rfl
  · rename_i h
    exact parseLine_of_not_shown st (by simpa using h)

theorem foldlM_stepLine (ls : List Str) (st : ParseState) :
    ls.foldlM parseLine st = ((ls.filter Shown).map Line.ofRaw).foldlM stepLine st := by
  rw [List.foldlM_map, List.foldlM_filter]
  refine congrArg (fun step => ls.foldlM step st) (funext fun st => funext fun rawLine => ?_)
  split
  · rename_i h
    exact parseLine_of_shown st (by simpa using h)
  · rename_i h
    exact parseLine_of_not_shown st (by simpa using h)

end ParseState

namespace KernelConfig

theorem fromYaml_shown (yaml : Str) :
    fromYaml yaml = parseFrom .init ((lines yaml).filter Shown) := by
  rw [fromYaml, ParseState.foldlM_shown]
  rfl

theorem fromYaml_shownLines (yaml : Str) : fromYaml yaml =
    (shownLines yaml).foldlM ParseState.stepLine .init >>= fun st => ExceptT.mk (some st.finish) := by
  rw [fromYaml, ParseState.foldlM_stepLine]
  rfl

end KernelConfig

end OciKernel
