import OciKernel.Host.Output
import OciKernel.Host.ShellGrammar
import OciKernel.Lib.Lossy
import OciKernel.Lib.Run
import OciKernel.Lib.Terminal

/-!
# Host.Console

`Getty::run` of `host/getty.rs` on the bytes that arrive on the serial port: the login, the shell loop and
the two line readers. A `Console` is the state between two bytes; the network is polled there and shares
no state with it.

`Session` is the same one level up, on whole lines. `typed` says which lines a stream of bytes is.

* `final_eq`, `output_eq`: the console does on the bytes what the session does on the lines typed.
-/

namespace OciKernel

open Text Terminal

def ROOT_USER : Str := "root".toList
def ROOT_PASS : Str := "admin".toList

/-- Which line is read. -/
inductive Prompt where
  | login
  | password (user : Str)
  | shell

structure Session where
  prompt : Prompt
  kernel : Kernel

namespace Session

def greeting : Str := say "OCI Kernel 0.1.0" ++ "login: ".toList

def motd (k : Kernel) : Str :=
  match k.rootFs.read "/etc/motd".toList with
  | .ok data => (fromUtf8 data).getD []
  | .error _ => []

def shellPrompt (k : Kernel) : Str := k.cwd ++ "# ".toList

/-- The credentials that are let in. -/
def Accepts (user pass : Str) : Prop := trim user = ROOT_USER ∧ trim pass = ROOT_PASS

instance (user pass : Str) : Decidable (Accepts user pass) := inferInstanceAs (Decidable (_ ∧ _))

/-- One line of input, with what is printed until the next one is read. -/
def line (pci : PciBus) (s : Session) (l : Str) : Session × Str :=
  match s.prompt with
  | .login => (⟨.password l, s.kernel⟩, "Password: ".toList)
  | .password user =>
    if Accepts user l then (⟨.shell, s.kernel⟩, motd s.kernel ++ shellPrompt s.kernel)
    else (⟨.login, s.kernel⟩, say "Login incorrect.\n" ++ greeting)
  | .shell =>
    if trim l = [] then (s, shellPrompt s.kernel)
    else
      match ShellCommand.parse l with
      | .ok cmd =>
        (⟨.shell, s.kernel.execute cmd⟩, s.kernel.output pci cmd ++ shellPrompt (s.kernel.execute cmd))
      | .error _ =>
        (s, say "command not found. Type 'help' for available commands." ++ shellPrompt s.kernel)

/-- The password is not echoed. -/
def silent (s : Session) : Bool :=
  match s.prompt with
  | .password _ => true
  | _ => false

end Session

structure Console where
  session : Session
  buf : Bytes

namespace Console

/-- Before the first byte, with `Session.greeting` printed. -/
def boot (k : Kernel) : Console := ⟨⟨.login, k⟩, []⟩

def isEnter (b : UInt8) : Bool := b = 13 ∨ b = 10

def key (b : UInt8) : Terminal.Key UInt8 :=
  if b = 0x7F ∨ b = 0x08 then .erase else if 0x20 ≤ b then .put b else .other

/-- `c as char` -/
def glyph (b : UInt8) : Char := Char.ofNat b.toNat

/-- One byte, with what is printed for it. -/
def step (pci : PciBus) (c : Console) (b : UInt8) : Console × Str :=
  if isEnter b then
    let (session, out) := c.session.line pci (lossy c.buf)
    (⟨session, []⟩, '\n' :: out)
  else ({ c with buf := edit c.buf (key b) }, if c.session.silent then [] else echo glyph c.buf (key b))

def final (pci : PciBus) (c : Console) (bytes : Bytes) : Console := Transition.final (step pci) c bytes

/-- Everything printed for the bytes. -/
def output (pci : PciBus) (c : Console) (bytes : Bytes) : Str :=
  (Transition.trace (step pci) c bytes).flatMap Prod.snd

/-! ## Lines -/

/-- The line that the keys leave. -/
def edited (raw : Bytes) : Bytes := (raw.map key).foldl edit []

/-- The pieces of the stream between two Enters; the last one is not entered yet. -/
def pieces (bytes : Bytes) : List Bytes := bytes.splitOnP isEnter

/-- The lines entered. -/
def typed (bytes : Bytes) : List Str := (pieces bytes).dropLast.map fun raw => lossy (edited raw)

/-- What stands on the last line. -/
def pending (bytes : Bytes) : Bytes := edited ((pieces bytes).getLastD [])

section Refine

variable {pci : PciBus} {c : Console} {b : UInt8} {raw rest bytes : Bytes}

theorem final_append (c : Console) (bs cs : Bytes) :
    final pci c (bs ++ cs) = final pci (final pci c bs) cs := List.foldl_append

theorem output_append (c : Console) (bs cs : Bytes) :
    output pci c (bs ++ cs) = output pci c bs ++ output pci (final pci c bs) cs := by
  induction bs generalizing c with
  | nil => rfl
  | cons b bs ih =>
    have hcons : ∀ c : Console, ∀ ds : Bytes, output pci c (b :: ds) =
        (step pci c b).2 ++ output pci (step pci c b).1 ds := fun c ds => rfl
    rw [List.cons_append, hcons, hcons, ih, List.append_assoc]
    rfl

/-- No Enter: only the buffer changes, and only the echo is printed. -/
theorem final_raw (h : ∀ b ∈ raw, isEnter b = false) (c : Console) :
    final pci c raw = { c with buf := (raw.map key).foldl edit c.buf } := by
  induction raw generalizing c with
  | nil => rfl
  | cons b raw ih =>
    obtain ⟨hb, h⟩ := List.forall_mem_cons.1 h
    have hstep : (step pci c b).1 = { c with buf := edit c.buf (key b) } := by
      rw [step, hb]
      rfl
    have hcons : final pci c (b :: raw) = final pci (step pci c b).1 raw := rfl
    rw [hcons, hstep, ih h]
    rfl

theorem output_raw (h : ∀ b ∈ raw, isEnter b = false) (c : Console) : output pci c raw =
    if c.session.silent then [] else Display.echoes glyph c.buf (raw.map key) := by
  induction raw generalizing c with
  | nil =>
    split <;> rfl
  | cons b raw ih =>
    obtain ⟨hb, h⟩ := List.forall_mem_cons.1 h
    have hstep : step pci c b = ({ c with buf := edit c.buf (key b) },
        if c.session.silent then [] else echo glyph c.buf (key b)) := by
      rw [step, hb]
      rfl
    have hcons : output pci c (b :: raw) = (step pci c b).2 ++ output pci (step pci c b).1 raw := rfl
    rw [hcons, hstep, ih h]
    split <;> rfl

theorem final_enter (hb : isEnter b = true) (c : Console) :
    final pci c [b] = ⟨(c.session.line pci (lossy c.buf)).1, []⟩ := by
  have hstep : final pci c [b] = (step pci c b).1 := rfl
  rw [hstep, step, if_pos hb]

theorem output_enter (hb : isEnter b = true) (c : Console) :
    output pci c [b] = '\n' :: (c.session.line pci (lossy c.buf)).2 := by
  have hstep : output pci c [b] = (step pci c b).2 := List.append_nil _
  rw [hstep, step, if_pos hb]

/-- A stream ends in what is not entered, or starts with a line that is. -/
theorem stream_induction {P : Bytes → Prop} (hraw : ∀ raw, (∀ b ∈ raw, isEnter b = false) → P raw)
    (henter : ∀ raw b rest, (∀ b ∈ raw, isEnter b = false) → isEnter b = true → P rest →
      P (raw ++ b :: rest)) (bytes : Bytes) : P bytes := by
  suffices h : ∀ raw, (∀ b ∈ raw, isEnter b = false) → P (raw ++ bytes) from h [] (List.forall_mem_nil _)
  induction bytes with
  | nil =>
    intro raw h
    rw [List.append_nil]
    exact hraw raw h
  | cons b bytes ih =>
    intro raw h
    cases hb : isEnter b with
    | true => exact henter raw b bytes h hb (ih [] (List.forall_mem_nil _))
    | false =>
      rw [List.append_cons]
      exact ih (raw ++ [b]) (List.forall_mem_append.2 ⟨h, List.forall_mem_singleton.2 hb⟩)

theorem pieces_raw (h : ∀ b ∈ raw, isEnter b = false) : pieces raw = [raw] :=
  List.splitOnP_eq_singleton h

theorem pieces_enter (h : ∀ b ∈ raw, isEnter b = false) (hb : isEnter b = true) (rest : Bytes) :
    pieces (raw ++ b :: rest) = raw :: pieces rest :=
  List.splitOnP_append_cons_of_forall_mem h b hb rest

theorem pieces_ne_nil (bytes : Bytes) : pieces bytes ≠ [] := List.splitOnP_ne_nil _ _

theorem typed_raw (h : ∀ b ∈ raw, isEnter b = false) : typed raw = [] ∧ pending raw = edited raw := by
  rw [typed, pending, pieces_raw h]
  exact ⟨rfl, rfl⟩

theorem typed_enter (h : ∀ b ∈ raw, isEnter b = false) (hb : isEnter b = true) (rest : Bytes) :
    typed (raw ++ b :: rest) = lossy (edited raw) :: typed rest ∧
      pending (raw ++ b :: rest) = pending rest := by
  have hne := pieces_ne_nil rest
  rw [typed, pending, pieces_enter h hb, List.dropLast_cons_of_ne_nil hne, List.map_cons]
  refine ⟨rfl, ?_⟩
  obtain ⟨piece, more, hmore⟩ := List.exists_cons_of_ne_nil hne
  rw [pending, hmore]
  rfl

end Refine

end Console

namespace Session

/-- The session after the lines. -/
def run (pci : PciBus) (s : Session) (ls : List Str) : Session :=
  Transition.final (fun s l => s.line pci l) s ls

end Session

namespace Console

/-- By induction on the lines of the stream. -/
theorem final_eq (pci : PciBus) (s : Session) (bytes : Bytes) :
    final pci ⟨s, []⟩ bytes = ⟨s.run pci (typed bytes), pending bytes⟩ := by
  induction bytes using stream_induction generalizing s with
  | hraw raw h =>
    obtain ⟨htyped, hpending⟩ := typed_raw h
    rw [final_raw h, htyped, hpending]
    rfl
  | henter raw b rest h hb ih =>
    obtain ⟨htyped, hpending⟩ := typed_enter h hb rest
    rw [htyped, hpending, List.append_cons, final_append, final_append, final_raw h, final_enter hb, ih]
    rfl

end Console

/-! ## The login -/

namespace Session

/-- The lines after the first credentials that are let in. -/
def shellLines : List Str → Option (List Str)
  | user :: pass :: rest => if Accepts user pass then some rest else shellLines rest
  | _ => none

/-- The commands that the lines are read as. -/
def commands (ls : List Str) : List ShellCommand :=
  ls.filterMap fun l => (ShellCommand.parse l).toOption

section Login

variable {pci : PciBus} {k : Kernel} {ls : List Str}

theorem parse_blank {l : Str} (h : trim l = []) : ShellCommand.parse l = .error .unknownCommand := by
  rw [ShellCommand.parse, h]
  rfl

/-- There is no way back to the login. -/
theorem run_shell (pci : PciBus) (k : Kernel) (ls : List Str) :
    run pci ⟨.shell, k⟩ ls = ⟨.shell, (commands ls).foldl Kernel.execute k⟩ := by
  induction ls generalizing k with
  | nil => rfl
  | cons l ls ih =>
    have hcons : run pci ⟨.shell, k⟩ (l :: ls) = run pci (line pci ⟨.shell, k⟩ l).1 ls := rfl
    have hline : (line pci ⟨.shell, k⟩ l).1 =
        ⟨.shell, ((ShellCommand.parse l).toOption.toList).foldl Kernel.execute k⟩ := by
      unfold line
      dsimp only
      split
      · rename_i hblank
        rw [parse_blank hblank]
        rfl
      · cases ShellCommand.parse l <;> rfl
    rw [hcons, hline, ih, ← List.foldl_append]
    congr 2
    cases hl : ShellCommand.parse l <;> simp [commands, hl, Except.toOption]

theorem run_login (pci : PciBus) (k : Kernel) (ls : List Str) :
    (run pci ⟨.login, k⟩ ls).kernel = (commands ((shellLines ls).getD [])).foldl Kernel.execute k ∧
      ((run pci ⟨.login, k⟩ ls).prompt = .shell ↔ (shellLines ls).isSome) := by
  induction ls using shellLines.induct with
  | case1 user pass rest haccepts =>
    have hrun : run pci ⟨.login, k⟩ (user :: pass :: rest) = run pci ⟨.shell, k⟩ rest := by
      have hline : (line pci ⟨.password user, k⟩ pass).1 = ⟨.shell, k⟩ := by
        unfold line
        exact congrArg Prod.fst (if_pos haccepts)
      exact congrArg (fun s => run pci s rest) hline
    rw [hrun, run_shell, shellLines, if_pos haccepts]
    exact ⟨rfl, by simp⟩
  | case2 user pass rest haccepts ih =>
    have hrun : run pci ⟨.login, k⟩ (user :: pass :: rest) = run pci ⟨.login, k⟩ rest := by
      have hline : (line pci ⟨.password user, k⟩ pass).1 = ⟨.login, k⟩ := by
        unfold line
        exact congrArg Prod.fst (if_neg haccepts)
      exact congrArg (fun s => run pci s rest) hline
    rw [hrun, shellLines, if_neg haccepts]
    exact ih
  | case3 ls hls =>
    -- no line, or a user without a password yet
    match ls, hls with
    | [], _ => exact ⟨rfl, nofun, nofun⟩
    | [user], _ => exact ⟨rfl, nofun, nofun⟩
    | user :: pass :: rest, hls => exact (hls user pass rest rfl).elim

/-- The credentials that are let in are a line and the next one, at an even place. -/
theorem shellLines_isSome (ls : List Str) : (shellLines ls).isSome ↔
    ∃ i user pass, ls[2 * i]? = some user ∧ ls[2 * i + 1]? = some pass ∧ Accepts user pass := by
  induction ls using shellLines.induct with
  | case1 user pass rest haccepts =>
    rw [shellLines, if_pos haccepts]
    exact iff_of_true rfl ⟨0, user, pass, rfl, rfl, haccepts⟩
  | case2 user pass rest haccepts ih =>
    rw [shellLines, if_neg haccepts, ih]
    constructor
    · rintro ⟨i, u, p, hu, hp, h⟩
      exact ⟨i + 1, u, p, hu, hp, h⟩
    · rintro ⟨i, u, p, hu, hp, h⟩
      cases i with
      | zero =>
        cases hu
        cases hp
        exact absurd h haccepts
      | succ i => exact ⟨i, u, p, hu, hp, h⟩
  | case3 ls hls =>
    match ls, hls with
    | [], _ => simp [shellLines]
    | [user], _ => simp [shellLines]
    | user :: pass :: rest, hls => exact (hls user pass rest rfl).elim

end Login

end Session

/-! ## What can be typed -/

/-- No control character below the blank, and no delete. -/
def Keyable (s : Str) : Prop := ∀ c ∈ s, 0x20 ≤ c.toNat ∧ c.toNat ≠ 0x7F

instance (s : Str) : Decidable (Keyable s) := List.decidableBAll _ s

namespace Console

/-- The bytes that enter a line. -/
def keys (s : Str) : Bytes := toUtf8 s ++ [13]

/-- A byte that is put in the line. -/
def IsPut (b : UInt8) : Prop := 0x20 ≤ b.toNat ∧ b.toNat ≠ 0x7F

section Keys

variable {b : UInt8} {s : Str} {bytes : Bytes}

theorem key_put (h : IsPut b) : isEnter b = false ∧ key b = .put b := by
  obtain ⟨hle, hne⟩ := h
  have hb : ∀ n : UInt8, n.toNat < 0x20 ∨ n.toNat = 0x7F → b ≠ n := by
    rintro n hn rfl
    omega
  have h20 : (0x20 : UInt8) ≤ b := UInt8.le_iff_toNat_le.2 hle
  have henter : ¬ (b = 13 ∨ b = 10) := not_or.2 ⟨hb 13 (by decide), hb 10 (by decide)⟩
  have herase : ¬ (b = 0x7F ∨ b = 0x08) := not_or.2 ⟨hb 0x7F (by decide), hb 0x08 (by decide)⟩
  exact ⟨decide_eq_false henter, by rw [key, if_neg herase, if_pos h20]⟩

theorem isPut_of_keyable (h : Keyable s) : ∀ b ∈ toUtf8 s, IsPut b := by
  intro b hb
  obtain ⟨c, hc, hbc⟩ := List.mem_flatMap.1 hb
  by_cases hlt : b < 0x80
  · rw [IsPut, ← mem_utf8EncodeChar hlt hbc]
    exact h c hc
  · have hle : 0x80 ≤ b.toNat := Nat.not_lt.1 fun h => hlt (UInt8.lt_iff_toNat_lt.2 h)
    constructor <;> omega

theorem edited_put (h : ∀ b ∈ bytes, IsPut b) : edited bytes = bytes := by
  have hkeys : bytes.map key = bytes.map .put := List.map_congr_left fun b hb => (key_put (h b hb)).2
  have hfold : ∀ line : Bytes, (bytes.map Key.put).foldl edit line = line ++ bytes := by
    clear h hkeys
    induction bytes with
    | nil => exact fun line => (List.append_nil line).symm
    | cons b bytes ih =>
      intro line
      rw [List.map_cons, List.foldl_cons, ih, edit, List.append_assoc]
      rfl
  rw [edited, hkeys, hfold, List.nil_append]

theorem typed_keys (h : Keyable s) (rest : Bytes) : typed (keys s ++ rest) = s :: typed rest := by
  have hput := isPut_of_keyable h
  have htyped := (typed_enter (b := 13) (fun b hb => (key_put (hput b hb)).1) rfl rest).1
  rw [keys, List.append_assoc, List.singleton_append, htyped, edited_put hput, lossy_toUtf8]

/-- Only what is put in the line is in it. -/
theorem isPut_edited (raw : Bytes) : ∀ b ∈ edited raw, IsPut b := by
  have hedit : ∀ (line : Bytes) (b : UInt8), (∀ x ∈ line, IsPut x) → ∀ x ∈ edit line (key b), IsPut x := by
    intro line b h
    unfold key
    split
    · exact fun x hx => h x (List.mem_of_mem_dropLast hx)
    · rename_i hne
      split
      · rename_i hle
        have hput : IsPut b := by
          refine ⟨UInt8.le_iff_toNat_le.1 hle, fun he => hne (.inl ?_)⟩
          exact UInt8.toNat_inj.1 he
        exact List.forall_mem_append.2 ⟨h, List.forall_mem_singleton.2 hput⟩
      · exact h
  have hfold : ∀ line : Bytes, (∀ x ∈ line, IsPut x) →
      ∀ x ∈ (raw.map key).foldl edit line, IsPut x := by
    induction raw with
    | nil => exact fun line h => h
    | cons b raw ih => exact fun line h => ih _ (hedit line b h)
  exact hfold [] (List.forall_mem_nil _)

theorem keyable_lossy (h : ∀ b ∈ bytes, IsPut b) : Keyable (lossy bytes) := by
  intro c hc
  rcases mem_lossyFrom hc with rfl | hall
  · decide
  · by_cases hlt : c.toNat < 0x80
    · have hb : (UInt8.ofNat c.toNat).toNat = c.toNat :=
        UInt8.toNat_ofNat_of_lt' (Nat.lt_trans hlt (by decide))
      have hencode := encode_ascii (b := UInt8.ofNat c.toNat) (by
        rw [UInt8.lt_iff_toNat_lt, hb]
        exact hlt)
      rw [hb, Char.ofNat_toNat] at hencode
      have hput := h _ (hall _ (hencode ▸ List.mem_singleton_self _))
      rwa [IsPut, hb] at hput
    · constructor <;> omega

/-- The lines that can be entered. -/
theorem typed_iff (ls : List Str) : (∃ bytes, typed bytes = ls) ↔ ∀ l ∈ ls, Keyable l := by
  constructor
  · rintro ⟨bytes, rfl⟩ l hl
    obtain ⟨raw, -, rfl⟩ := List.mem_map.1 hl
    exact keyable_lossy (isPut_edited raw)
  · intro h
    refine ⟨ls.flatMap keys, ?_⟩
    induction ls with
    | nil => rfl
    | cons l ls ih =>
      obtain ⟨hl, h⟩ := List.forall_mem_cons.1 h
      rw [List.flatMap_cons, typed_keys hl, ih h]

end Keys

end Console

/-! ## The runs of the console -/

namespace Console

open Session

/-- The shell is reached by entering the credentials at the login, and by nothing else; there is no way
back. Until then no command is executed, and after that the kernel is the run of the commands that the
lines are read as. The lines that can be entered are those without control characters, so every run of
typeable commands whose lines have none is one of the console. -/
theorem console_runs (pci : PciBus) :
    (∀ (k : Kernel) (bytes : Bytes),
      ((final pci (boot k) bytes).session.prompt = .shell ↔ ∃ i user pass,
        (typed bytes)[2 * i]? = some user ∧ (typed bytes)[2 * i + 1]? = some pass ∧ Accepts user pass) ∧
      (final pci (boot k) bytes).session.kernel =
        (commands ((shellLines (typed bytes)).getD [])).foldl Kernel.execute k) ∧
    (∀ ls : List Str, (∃ bytes, typed bytes = ls) ↔ ∀ l ∈ ls, Keyable l) ∧
    ∀ cmds : List ShellCommand, (∀ cmd ∈ cmds, cmd.Typeable ∧ Keyable cmd.line) →
      ∃ bytes, ∀ k : Kernel,
        (final pci (boot k) bytes).session = ⟨.shell, cmds.foldl Kernel.execute k⟩ := by
  refine ⟨fun k bytes => ?_, typed_iff, fun cmds h => ?_⟩
  · obtain ⟨hkernel, hprompt⟩ := run_login pci k (typed bytes)
    rw [boot, final_eq]
    exact ⟨hprompt.trans (shellLines_isSome _), hkernel⟩
  · have hkeyable : ∀ l ∈ ROOT_USER :: ROOT_PASS :: cmds.map ShellCommand.line, Keyable l := by
      refine List.forall_mem_cons.2 ⟨by decide, List.forall_mem_cons.2 ⟨by decide, fun l hl => ?_⟩⟩
      obtain ⟨cmd, hcmd, rfl⟩ := List.mem_map.1 hl
      exact (h cmd hcmd).2
    obtain ⟨bytes, hbytes⟩ := (typed_iff _).2 hkeyable
    have hcommands : commands (cmds.map ShellCommand.line) = cmds := by
      have hparse : ∀ cmd ∈ cmds, ((ShellCommand.parse cmd.line).toOption) = some cmd := by
        intro cmd hcmd
        rw [ShellCommand.parse_line (h cmd hcmd).1]
        rfl
      rw [commands, List.filterMap_map]
      exact (List.filterMap_congr hparse).trans List.filterMap_some
    refine ⟨bytes, fun k => ?_⟩
    have hlogin : run pci ⟨.login, k⟩ (ROOT_USER :: ROOT_PASS :: cmds.map ShellCommand.line) =
        run pci ⟨.shell, k⟩ (cmds.map ShellCommand.line) := by
      have hline : (line pci ⟨.password ROOT_USER, k⟩ ROOT_PASS).1 = ⟨.shell, k⟩ := by
        unfold line
        exact congrArg Prod.fst (if_pos (by decide))
      exact congrArg (fun s => run pci s (cmds.map ShellCommand.line)) hline
    rw [boot, final_eq, hbytes, hlogin, run_shell, hcommands]

/-! ## What is printed -/

/-- What is printed while a line is edited. -/
def echoed (s : Session) (raw : Bytes) : Str :=
  if s.silent then [] else Display.echoes glyph [] (raw.map key)

/-- What is printed for the pieces of a stream. -/
def shown (pci : PciBus) (s : Session) : List Bytes → Str
  | [] => []
  | raw :: more =>
    echoed s raw ++
      match more with
      | [] => []
      | _ :: _ =>
        '\n' :: ((s.line pci (lossy (edited raw))).2 ++ shown pci (s.line pci (lossy (edited raw))).1 more)

theorem shown_cons (pci : PciBus) (s : Session) (raw : Bytes) {more : List Bytes} (h : more ≠ []) :
    shown pci s (raw :: more) = echoed s raw ++ '\n' :: ((s.line pci (lossy (edited raw))).2 ++
      shown pci (s.line pci (lossy (edited raw))).1 more) := by
  cases more with
  | nil => exact absurd rfl h
  | cons raw' more => rfl

/-- By induction on the lines of the stream. -/
theorem output_eq (pci : PciBus) (s : Session) (bytes : Bytes) :
    output pci ⟨s, []⟩ bytes = shown pci s (pieces bytes) := by
  induction bytes using stream_induction generalizing s with
  | hraw raw h =>
    rw [output_raw h, pieces_raw h]
    exact (List.append_nil _).symm
  | henter raw b rest h hb ih =>
    rw [pieces_enter h hb, shown_cons _ _ _ (pieces_ne_nil rest), List.append_cons, output_append,
      output_append, output_raw h, final_append, final_raw h, output_enter hb, final_enter hb, ih,
      List.append_assoc]
    rfl

/-- Two streams from the login on, in pieces, that differ in their passwords only, each of which is let in
if the other is. -/
inductive SameView : List Bytes → List Bytes → Prop where
  | same (ps : List Bytes) : SameView ps ps
  | unfinished (user pass pass' : Bytes) : SameView [user, pass] [user, pass']
  | accepted {user pass pass' : Bytes} (rest : List Bytes) :
    Accepts (lossy (edited user)) (lossy (edited pass)) →
    Accepts (lossy (edited user)) (lossy (edited pass')) →
    SameView (user :: pass :: rest) (user :: pass' :: rest)
  | rejected {user pass pass' : Bytes} {rest rest' : List Bytes} :
    ¬ Accepts (lossy (edited user)) (lossy (edited pass)) →
    ¬ Accepts (lossy (edited user)) (lossy (edited pass')) →
    SameView rest rest' → SameView (user :: pass :: rest) (user :: pass' :: rest')

theorem SameView.nil_iff {ps ps' : List Bytes} (h : SameView ps ps') : ps = [] ↔ ps' = [] := by
  cases h <;> simp

section Secrecy

variable {pci : PciBus} {k : Kernel} {user pass : Bytes} {rest : List Bytes}

/-- What a login prints: the user, nothing of the password, and the answer. -/
theorem shown_login (hrest : rest ≠ []) : shown pci ⟨.login, k⟩ (user :: pass :: rest) =
    echoed ⟨.login, k⟩ user ++ '\n' :: ("Password: ".toList ++ '\n' ::
      ((line pci ⟨.password (lossy (edited user)), k⟩ (lossy (edited pass))).2 ++
        shown pci (line pci ⟨.password (lossy (edited user)), k⟩ (lossy (edited pass))).1 rest)) := by
  rw [shown_cons _ _ _ (List.cons_ne_nil _ _), shown_cons _ _ _ hrest]
  rfl

theorem line_accepted (pci : PciBus) (k : Kernel) {user pass : Str} (h : Accepts user pass) :
    line pci ⟨.password user, k⟩ pass = (⟨.shell, k⟩, motd k ++ shellPrompt k) := by
  unfold line
  exact if_pos h

theorem line_rejected (pci : PciBus) (k : Kernel) {user pass : Str} (h : ¬ Accepts user pass) :
    line pci ⟨.password user, k⟩ pass = (⟨.login, k⟩, say "Login incorrect.\n" ++ greeting) := by
  unfold line
  exact if_neg h

/-- One case per kind of difference. -/
theorem shown_sameView {ps ps' : List Bytes} (h : SameView ps ps') :
    shown pci ⟨.login, k⟩ ps = shown pci ⟨.login, k⟩ ps' := by
  induction h with
  | same ps => rfl
  | unfinished user pass pass' => rfl
  | @accepted user pass pass' rest ha ha' =>
    cases rest with
    | nil => rfl
    | cons raw rest =>
      rw [shown_login (List.cons_ne_nil _ _), shown_login (List.cons_ne_nil _ _), line_accepted pci k ha,
        line_accepted pci k ha']
  | @rejected user pass pass' rest rest' hr hr' hsame ih =>
    by_cases hnil : rest = []
    · have hnil' := hsame.nil_iff.1 hnil
      subst hnil hnil'
      rfl
    · rw [shown_login hnil, shown_login (mt hsame.nil_iff.2 hnil), line_rejected pci k hr,
        line_rejected pci k hr', ih]

/-- Nothing that is printed tells passwords apart which are let in alike. -/
theorem password_secret (pci : PciBus) (k : Kernel) (bytes bytes' : Bytes)
    (h : SameView (pieces bytes) (pieces bytes')) :
    output pci (boot k) bytes = output pci (boot k) bytes' := by
  rw [boot, output_eq, output_eq, shown_sameView h]

/-- Two wrong passwords. -/
theorem password_secret_wrong :
    output .empty (boot .init) (ascii "root\rfoo\rroot\r") =
      output .empty (boot .init) (ascii "root\rsecret\x7f\rroot\r") := by
  have hpieces : pieces (ascii "root\rfoo\rroot\r") =
      [ascii "root", ascii "foo", ascii "root", []] := by decide +kernel
  have hpieces' : pieces (ascii "root\rsecret\x7f\rroot\r") =
      [ascii "root", ascii "secret\x7f", ascii "root", []] := by decide +kernel
  refine password_secret .empty .init _ _ ?_
  rw [hpieces, hpieces']
  exact .rejected (by decide +kernel) (by decide +kernel) (.same _)

end Secrecy

/-- A byte that is put in the line is shown as no control character. -/
theorem glyph_key (b : UInt8) : Display.Glyph glyph (key b) := by
  unfold key
  split
  · trivial
  · split
    · rename_i hle
      have hle : 0x20 ≤ (glyph b).toNat := by
        rw [glyph, toNat_latin1]
        exact UInt8.le_iff_toNat_le.1 hle
      constructor
      · intro he
        rw [he] at hle
        revert hle
        decide
      · intro he
        rw [he] at hle
        revert hle
        decide
    · trivial

/-- While a line is edited, the display keeps what stood on it and has the line after that, each byte as
a character, or nothing at a password. This is the text that Enter reads exactly when it is ASCII. -/
theorem line_shown (pci : PciBus) (c : Console) (raw : Bytes) (d : Display) (hbuf : c.buf = [])
    (hraw : ∀ b ∈ raw, isEnter b = false) (hright : ∀ cell ∈ d.right, cell = ' ') :
    Display.Shows d.left glyph (if c.session.silent then [] else (final pci c raw).buf)
      (d.prints (output pci c raw)) ∧
    ((final pci c raw).buf.map glyph = lossy (final pci c raw).buf ↔
      ∀ b ∈ (final pci c raw).buf, b < 0x80) := by
  have hstart : Display.Shows d.left glyph [] d := ⟨(List.append_nil _).symm, hright⟩
  have hglyph : ∀ k ∈ raw.map key, Display.Glyph glyph k := by
    intro k hk
    obtain ⟨b, -, rfl⟩ := List.mem_map.1 hk
    exact glyph_key b
  refine ⟨?_, ?_⟩
  · rw [output_raw hraw, final_raw hraw, hbuf]
    split
    · exact hstart
    · exact Display.prints_keys hglyph hstart
  · rw [eq_comm]
    exact lossy_eq_latin1_iff _

/-- A character taken back on the first line. -/
theorem line_shown_erased : Display.Shows "login: ".toList glyph (ascii "roo")
    (Display.prints ⟨"login: ".toList, []⟩ (output .empty (boot .init) (ascii "roox\x7f"))) := by
  have hbuf : (final .empty (boot .init) (ascii "roox\x7f")).buf = ascii "roo" := by decide +kernel
  have h := (line_shown .empty (boot .init) (ascii "roox\x7f") ⟨"login: ".toList, []⟩ rfl (by decide +kernel)
    (List.forall_mem_nil _)).1
  rw [hbuf] at h
  exact h

end Console

end OciKernel
