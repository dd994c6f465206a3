/-!
# Lib.Options

Options on a command line, over arbitrary types of arguments and values: a flag, and its value in the
next argument. What is no flag is skipped.

* `Flag.scan`: a pass over the arguments that knows one flag.
* `readBoth`: one pass that knows two flags.
* `scan_scan_iff`: two passes read what the one pass reads, when neither flag can be a value of the
  other.
-/

namespace Options

universe u

variable {A E X Y : Type u}

structure Flag (A E X : Type u) where
  isFlag : A → Bool
  parse : A → Except E X
  /-- The flag is the last argument. -/
  missing : E

def Flag.scan (f : Flag A E X) : List A → Except E (List X)
  | [] => .ok []
  | [a] => if f.isFlag a then .error f.missing else .ok []
  | a :: v :: as =>
    if f.isFlag a then do
      let x ← f.parse v
      let xs ← f.scan as
      .ok (x :: xs)
    else f.scan (v :: as)

/-- No result where a value is missing or does not parse. -/
def readBoth (f : Flag A E X) (g : Flag A E Y) : List A → Option (List X × List Y)
  | [] => some ([], [])
  | [a] => if f.isFlag a || g.isFlag a then none else some ([], [])
  | a :: v :: as =>
    if f.isFlag a then do
      let x ← (f.parse v).toOption
      let (xs, ys) ← readBoth f g as
      some (x :: xs, ys)
    else if g.isFlag a then do
      let y ← (g.parse v).toOption
      let (xs, ys) ← readBoth f g as
      some (xs, y :: ys)
    else readBoth f g (v :: as)

variable {f : Flag A E X} {g : Flag A E Y} {a v : A} {as : List A} {x : X} {xs : List X}

theorem Flag.scan_ok_iff (ha : f.isFlag a = true) : f.scan (a :: v :: as) = .ok xs ↔
    ∃ x xs', f.parse v = .ok x ∧ f.scan as = .ok xs' ∧ x :: xs' = xs := by
  rw [scan, if_pos ha]
  cases f.parse v with
  | error e => exact iff_of_false nofun nofun
  | ok x =>
    cases f.scan as with
    | error e => exact iff_of_false nofun nofun
    | ok xs' =>
      constructor
      · intro h
        exact ⟨x, xs', rfl, rfl, Except.ok.inj h⟩
      · rintro ⟨_, _, ⟨⟩, ⟨⟩, rfl⟩
        rfl

theorem Flag.scan_skip (ha : f.isFlag a = false) (as : List A) : f.scan (a :: as) = f.scan as := by
  cases as with
  | nil => simp [scan, ha]
  | cons v as => rw [scan, if_neg (by simp [ha])]

/-- Each value was parsed from an argument. -/
theorem Flag.parse_of_mem (h : f.scan as = .ok xs) : ∀ x ∈ xs, ∃ a ∈ as, f.parse a = .ok x := by
  induction as using Flag.scan.induct f generalizing xs with
  | case1 =>
    cases h
    exact List.forall_mem_nil _
  | case2 a ha => simp [Flag.scan, ha] at h
  | case3 a ha =>
    rw [Flag.scan, if_neg ha] at h
    cases h
    exact List.forall_mem_nil _
  | case4 a v as ha ih =>
    obtain ⟨x, xs, hx, hxs, rfl⟩ := (Flag.scan_ok_iff ha).1 h
    refine List.forall_mem_cons.2 ⟨⟨v, by simp, hx⟩, fun y hy => ?_⟩
    obtain ⟨b, hb, hparse⟩ := ih hxs y hy
    exact ⟨b, by simp [hb], hparse⟩
  | case5 a v as ha ih =>
    rw [Flag.scan_skip (by simpa using ha)] at h
    intro x hx
    obtain ⟨b, hb, hparse⟩ := ih h x hx
    exact ⟨b, List.mem_cons_of_mem _ hb, hparse⟩
theorem toOption_eq_some {r : Except E X} : r.toOption = some x ↔ r = .ok x := by
  cases r <;> simp [Except.toOption]

theorem readBoth_left {ys : List Y} (ha : f.isFlag a = true) (hv : f.parse v = .ok x)
    (h : readBoth f g as = some (xs, ys)) : readBoth f g (a :: v :: as) = some (x :: xs, ys) := by
  rw [readBoth, if_pos ha, hv, h]
  rfl

theorem readBoth_right {y : Y} {ys : List Y} (hf : f.isFlag a = false) (hg : g.isFlag a = true)
    (hv : g.parse v = .ok y) (h : readBoth f g as = some (xs, ys)) :
    readBoth f g (a :: v :: as) = some (xs, y :: ys) := by
  rw [readBoth, if_neg (by simp [hf]), if_pos hg, hv, h]
  rfl

/-- Two flags, neither of which is a value that the other takes. -/
structure Apart (f : Flag A E X) (g : Flag A E Y) : Prop where
  left : ∀ a, g.isFlag a = true → ∀ x, f.parse a ≠ .ok x
  right : ∀ a, f.isFlag a = true → ∀ y, g.parse a ≠ .ok y
  disjoint : ∀ a, f.isFlag a = true → g.isFlag a = false

namespace Apart

variable {y : Y}

theorem notFlag_right (h : Apart f g) (hv : f.parse v = .ok x) : g.isFlag v = false :=
  Bool.eq_false_iff.2 fun hflag => h.left v hflag x hv

theorem notFlag_left (h : Apart f g) (hv : g.parse v = .ok y) : f.isFlag v = false :=
  Bool.eq_false_iff.2 fun hflag => h.right v hflag y hv

end Apart

/-- By induction on the arguments, as the one pass reads them. Where a value parses, it is a word like
any other for the other pass. -/
theorem scan_scan_iff (h : Apart f g) (as : List A) (xs : List X) (ys : List Y) :
    f.scan as = .ok xs ∧ g.scan as = .ok ys ↔ readBoth f g as = some (xs, ys) := by
  fun_induction readBoth f g as generalizing xs ys with
  | case1 => simp [Flag.scan]
  | case2 a ha =>
    rw [Bool.or_eq_true] at ha
    rcases ha with ha | ha <;> simp [Flag.scan, ha]
  | case3 a ha => simp_all [Flag.scan]
  | case4 a v as ha ih =>
    rw [Flag.scan_ok_iff ha, Flag.scan_skip (h.disjoint a ha)]
    simp only [Option.bind_eq_bind, Option.bind_eq_some_iff, toOption_eq_some, Prod.exists, ← ih]
    constructor
    · rintro ⟨⟨x, xs', hx, hxs, rfl⟩, hys⟩
      rw [Flag.scan_skip (h.notFlag_right hx)] at hys
      exact ⟨x, hx, xs', ys, ⟨hxs, hys⟩, rfl⟩
    · rintro ⟨x, hx, xs', ys', ⟨hxs, hys⟩, he⟩
      cases he
      exact ⟨⟨x, xs', hx, hxs, rfl⟩, by rw [Flag.scan_skip (h.notFlag_right hx), hys]⟩
  | case5 a v as ha hag ih =>
    rw [Flag.scan_skip (by simpa using ha), Flag.scan_ok_iff hag]
    simp only [Option.bind_eq_bind, Option.bind_eq_some_iff, toOption_eq_some, Prod.exists, ← ih]
    constructor
    · rintro ⟨hxs, y, ys', hy, hys, rfl⟩
      rw [Flag.scan_skip (h.notFlag_left hy)] at hxs
      exact ⟨y, hy, xs, ys', ⟨hxs, hys⟩, rfl⟩
    · rintro ⟨y, hy, xs', ys', ⟨hxs, hys⟩, he⟩
      cases he
      exact ⟨by rw [Flag.scan_skip (h.notFlag_left hy), hxs], y, ys', hy, hys, rfl⟩
  | case6 a v as ha hag ih =>
    have hxs : f.scan (a :: v :: as) = f.scan (v :: as) := Flag.scan_skip (by simpa using ha) _
    have hys : g.scan (a :: v :: as) = g.scan (v :: as) := Flag.scan_skip (by simpa using hag) _
    rw [hxs, hys]
    exact ih xs ys

end Options
