import Mathlib.Data.List.Infix
import Mathlib.Tactic.Common

/-! How a shell splits a command line into commands and their words. Patterns, comments and the
expansion of names are left out: where a substitution begins, there is no result. -/
namespace Shell

abbrev Word := List UInt8

def apostrophe : UInt8 := 39

/-- Where the splitting is: outside of quotes, in digits that may be the number of a redirection,
behind the sign of one, in quotes of one of the two kinds, or behind a backslash. -/
inductive Mode where
  | plain
  | number
  | arrow
  | single
  | double
  | escaped
  | doubleEscaped
  deriving DecidableEq

structure State where
  commands : List (List Word)
  words : List Word
  word : Option Word
  redirected : Bool
  mode : Mode
  deriving DecidableEq

namespace State

def start : State := ⟨[], [], none, false, .plain⟩

def add (s : State) (c : UInt8) (mode : Mode) : State :=
  { s with word := some (s.word.getD [] ++ [c]), mode := mode }

def enter (s : State) (mode : Mode) : State := { s with word := some (s.word.getD []), mode := mode }

def endWord (s : State) : State :=
  match s.word with
  | none => { s with mode := .plain }
  | some w =>
    if s.redirected then { s with word := none, redirected := false, mode := .plain }
    else { s with words := s.words ++ [w], word := none, mode := .plain }

def endCommand (s : State) : State :=
  if s.endWord.words = [] then s.endWord
  else { s.endWord with commands := s.endWord.commands ++ [s.endWord.words], words := [] }

def onPlain (s : State) (c : UInt8) : Option State :=
  if c = 32 ∨ c = 9 then some s.endWord
  else if c = apostrophe then some (s.enter .single)
  else if c = 34 then some (s.enter .double)
  else if c = 92 then some (s.enter .escaped)
  else if c = 59 ∨ c = 38 ∨ c = 124 ∨ c = 10 then some s.endCommand
  else if c = 60 ∨ c = 62 then some { s.endWord with redirected := true, mode := .arrow }
  else if c = 96 ∨ c = 36 ∨ c = 40 ∨ c = 41 then none
  else some (s.add c (if s.word = none ∧ 48 ≤ c ∧ c ≤ 57 then .number else .plain))

def step (s : State) (c : UInt8) : Option State :=
  match s.mode with
  | .plain => s.onPlain c
  | .number =>
    if 48 ≤ c ∧ c ≤ 57 then some (s.add c .number)
    else if c = 60 ∨ c = 62 then some { s with word := none, redirected := true, mode := .arrow }
    else s.onPlain c
  | .arrow => if c = 38 then some { s with mode := .plain } else s.onPlain c
  | .single => some (if c = apostrophe then s.enter .plain else s.add c .single)
  | .double =>
    if c = 34 then some (s.enter .plain)
    else if c = 92 then some (s.enter .doubleEscaped)
    else if c = 96 ∨ c = 36 then none
    else some (s.add c .double)
  | .escaped => some (s.add c .plain)
  | .doubleEscaped =>
    if c = 34 ∨ c = 92 ∨ c = 96 ∨ c = 36 then some (s.add c .double)
    else some ((s.add 92 .double).add c .double)

def finish (s : State) : Option (List (List Word)) :=
  if s.mode = .plain ∨ s.mode = .number then some s.endCommand.commands else none

def run (s : State) (line : List UInt8) : Option (List (List Word)) :=
  (line.foldlM step s).bind finish

end State

def split (line : List UInt8) : Option (List (List Word)) := State.start.run line

namespace State

variable {s s' : State} {ws : List Word} {w text : Word} {c : UInt8} {line : List UInt8}

theorem run_cons (s : State) (c : UInt8) (line : List UInt8) :
    s.run (c :: line) = (s.step c).bind fun s => s.run line := by
  rw [run, List.foldlM_cons, Option.bind_eq_bind, Option.bind_assoc]
  rfl

theorem run_append (s : State) (as bs : List UInt8) :
    s.run (as ++ bs) = (as.foldlM step s).bind fun s => s.run bs := by
  rw [run, List.foldlM_append, Option.bind_eq_bind, Option.bind_assoc]
  rfl

def first (s : State) : List Word := (s.commands ++ [s.words]).headD []

theorem first_endWord : s.first <+: s.endWord.first := by
  unfold endWord
  split
  · exact List.prefix_refl _
  · split
    · exact List.prefix_refl _
    · unfold first
      cases s.commands with
      | nil => exact List.prefix_append _ _
      | cons command commands => exact List.prefix_refl _

theorem first_endCommand : s.first <+: s.endCommand.first := by
  refine first_endWord.trans ?_
  unfold endCommand
  split
  · exact List.prefix_refl _
  · unfold first
    cases s.endWord.commands <;> exact List.prefix_refl _

theorem first_onPlain (h : s.onPlain c = some s') : s.first <+: s'.first := by
  unfold onPlain at h
  split_ifs at h <;> cases h
  · exact first_endWord
  · exact List.prefix_refl _
  · exact List.prefix_refl _
  · exact List.prefix_refl _
  · exact first_endCommand
  · exact first_endWord
  all_goals exact List.prefix_refl _

/-- No word of the first command is taken back. -/
theorem first_step (h : s.step c = some s') : s.first <+: s'.first := by
  unfold step at h
  split at h
  · exact first_onPlain h
  · split_ifs at h
    · cases h
      exact List.prefix_refl _
    · cases h
      exact List.prefix_refl _
    · exact first_onPlain h
  · split_ifs at h
    · cases h
      exact List.prefix_refl _
    · exact first_onPlain h
  · cases h
    split <;> exact List.prefix_refl _
  · split_ifs at h <;> cases h <;> exact List.prefix_refl _
  · cases h
    exact List.prefix_refl _
  · split_ifs at h <;> cases h <;> exact List.prefix_refl _

/-- A short word stays in the place of the text. -/
def Short (ws : List Word) (n : Nat) (s : State) : Prop := ∃ w, ws ++ [w] <+: s.first ∧ w.length < n

theorem Short.ne_run {n : Nat} (h : Short ws n s) (hn : text.length = n) :
    s.run line ≠ some [ws ++ [text]] := by
  induction line generalizing s with
  | nil =>
    intro hrun
    obtain ⟨w, hfirst, hlt⟩ := h
    have hend : s.endCommand.commands = [ws ++ [text]] := by
      change finish s = _ at hrun
      unfold finish at hrun
      split at hrun
      · exact Option.some.inj hrun
      · cases hrun
    have hwhole := hfirst.trans first_endCommand
    rw [first, hend] at hwhole
    have heq := List.prefix_append_right_inj ws |>.mp hwhole
    rw [(List.cons_prefix_cons.mp heq).1, hn] at hlt
    exact Nat.lt_irrefl n hlt
  | cons c line ih =>
    rw [run_cons]
    cases hstep : s.step c with
    | none => exact fun h => by cases h
    | some s' =>
      obtain ⟨w, hfirst, hlt⟩ := h
      exact ih ⟨w, hfirst.trans (first_step hstep), hlt⟩

theorem Short.mono {n m : Nat} (h : Short ws n s) (hle : n ≤ m) : Short ws m s := by
  obtain ⟨w, hfirst, hlt⟩ := h
  exact ⟨w, hfirst, Nat.lt_of_lt_of_le hlt hle⟩

def Mode.missing : Mode → Nat
  | .plain | .number | .arrow => 0
  | .single | .double | .escaped => 1
  | .doubleEscaped => 2

/-- In a word behind `ws`, which began with quotes and has taken at most `n` bytes. -/
structure Open (ws : List Word) (n : Nat) (w : Word) (s : State) : Prop where
  commands : s.commands = []
  words : s.words = ws
  word : s.word = some w
  redirected : s.redirected = false
  quoted : s.mode ≠ .number ∧ s.mode ≠ .arrow
  length : w.length + Mode.missing s.mode ≤ n

theorem Open.add {n m : Nat} (h : Open ws n w s) {mode : Mode}
    (hquoted : mode ≠ .number ∧ mode ≠ .arrow) (hlength : w.length + 1 + Mode.missing mode ≤ m) :
    Open ws m (w ++ [c]) (s.add c mode) :=
  ⟨h.commands, h.words, by rw [State.add, h.word]; rfl, h.redirected, hquoted,
    by rw [List.length_append]; exact hlength⟩

theorem Open.enter {n m : Nat} (h : Open ws n w s) {mode : Mode}
    (hquoted : mode ≠ .number ∧ mode ≠ .arrow) (hlength : w.length + Mode.missing mode ≤ m) :
    Open ws m w (s.enter mode) :=
  ⟨h.commands, h.words, by rw [State.enter, h.word]; rfl, h.redirected, hquoted, hlength⟩

theorem Open.short {n : Nat} (h : Open ws n w s) (hlt : w.length < n) :
    Short ws n s.endWord ∧ Short ws n s.endCommand := by
  have hfirst : ws ++ [w] <+: s.endWord.first := by
    simp [endWord, h.word, h.redirected, first, h.commands, h.words]
  refine ⟨⟨w, hfirst, hlt⟩, w, hfirst.trans ?_, hlt⟩
  unfold endCommand
  split
  · exact List.prefix_refl _
  · unfold first
    cases s.endWord.commands <;> exact List.prefix_refl _

theorem Open.onPlain {n : Nat} (h : Open ws n w s) (hmode : s.mode = .plain)
    (hstep : s.onPlain c = some s') : Short ws (n + 1) s' ∨ ∃ w', Open ws (n + 1) w' s' := by
  have hlength := h.length
  rw [hmode, Mode.missing] at hlength
  have hshort := @Open.short s ws w (n + 1) { h with length := by rw [hmode]; exact Nat.le_succ_of_le hlength }
    (by omega)
  unfold State.onPlain at hstep
  split_ifs at hstep <;> cases hstep
  · exact .inl hshort.1
  · exact .inr ⟨w, h.enter (by decide) (by simp only [Mode.missing]; omega)⟩
  · exact .inr ⟨w, h.enter (by decide) (by simp only [Mode.missing]; omega)⟩
  · exact .inr ⟨w, h.enter (by decide) (by simp only [Mode.missing]; omega)⟩
  · exact .inl hshort.2
  · exact .inl hshort.1
  · rename_i hnumber
    rw [h.word] at hnumber
    exact absurd hnumber.1 (by simp)
  · exact .inr ⟨_, h.add (by decide) (by simp only [Mode.missing]; omega)⟩

/-- One byte of the word, or the end of it. -/
theorem Open.step {n : Nat} (h : Open ws n w s) (hstep : s.step c = some s') :
    Short ws (n + 1) s' ∨ ∃ w', Open ws (n + 1) w' s' := by
  have hlength := h.length
  unfold State.step at hstep
  split at hstep
  next hmode => exact h.onPlain hmode hstep
  next hmode => exact absurd hmode h.quoted.1
  next hmode => exact absurd hmode h.quoted.2
  next hmode =>
    rw [hmode, Mode.missing] at hlength
    cases hstep
    split
    · exact .inr ⟨w, h.enter (by decide) (by simp only [Mode.missing]; omega)⟩
    · exact .inr ⟨_, h.add (by decide) (by simp only [Mode.missing]; omega)⟩
  next hmode =>
    rw [hmode, Mode.missing] at hlength
    split_ifs at hstep <;> cases hstep
    · exact .inr ⟨w, h.enter (by decide) (by simp only [Mode.missing]; omega)⟩
    · exact .inr ⟨w, h.enter (by decide) (by simp only [Mode.missing]; omega)⟩
    · exact .inr ⟨_, h.add (by decide) (by simp only [Mode.missing]; omega)⟩
  next hmode =>
    rw [hmode, Mode.missing] at hlength
    cases hstep
    exact .inr ⟨_, h.add (by decide) (by simp only [Mode.missing]; omega)⟩
  next hmode =>
    rw [hmode, Mode.missing] at hlength
    have hback : Open ws (n + 1) (w ++ [92]) (s.add 92 .double) :=
      h.add (by decide) (by simp only [Mode.missing]; omega)
    split_ifs at hstep <;> cases hstep
    · exact .inr ⟨_, h.add (by decide) (by simp only [Mode.missing]; omega)⟩
    · refine .inr ⟨_, hback.add (by decide) ?_⟩
      simp only [Mode.missing, List.length_append, List.length_singleton]
      omega

/-- In quotes that are not closed the line has no end. -/
theorem run_quoted {mode : Mode} (hmode : s.mode = mode) (hquoted : mode ≠ .plain ∧ mode ≠ .number)
    (hstays : ∀ c ∈ line, ∀ s : State, s.mode = mode → s.step c = some (s.add c mode)) :
    s.run line = none := by
  induction line generalizing s with
  | nil => exact if_neg (by rw [hmode]; exact not_or.mpr hquoted)
  | cons c line ih =>
    rw [run_cons, hstays c List.mem_cons_self s hmode]
    exact ih rfl fun c hc => hstays c (List.mem_cons_of_mem _ hc)

/-- ` 2>&1` -/
def errorsToOutput : List UInt8 := [32, 50, 62, 38, 49]

theorem single_stays (hc : c ≠ apostrophe) (s : State) (hmode : s.mode = .single) :
    s.step c = some (s.add c .single) := by
  simp only [step, hmode, if_neg hc]

theorem run_double (hmode : s.mode = .double) : s.run errorsToOutput = none := by
  refine run_quoted hmode (by decide) fun c hc s hs => ?_
  have hplain : ∀ c ∈ errorsToOutput, ¬ c = 34 ∧ ¬ c = 92 ∧ ¬ (c = 96 ∨ c = 36) := by
    simp only [errorsToOutput, List.forall_mem_cons, List.not_mem_nil, false_implies, implies_true,
      and_true]
    decide
  simp only [step, hs, hplain c hc, if_false]

/-- A quote at the end of the text, which the text has brought in front of it. -/
theorem Open.close {n : Nat} (h : Open ws n w s) (hn : text.length = n + 1) :
    s.run (apostrophe :: errorsToOutput) ≠ some [ws ++ [text]] := by
  have hlength := h.length
  have hends {s' : State} {w' : Word} (h' : Open ws n w' s') (hmode : s'.mode = .plain) :
      s'.run errorsToOutput ≠ some [ws ++ [text]] := by
    have hle := h'.length
    have hshort := (@Open.short s' ws w' (n + 1)
      { h' with length := Nat.le_succ_of_le hle } (by omega)).1
    have hstep : s'.step 32 = some s'.endWord := by
      rw [State.step, hmode]
      rfl
    rw [errorsToOutput, run_cons, hstep]
    exact hshort.ne_run hn
  rw [run_cons]
  unfold State.step
  cases hmode : s.mode with
  | number => exact absurd hmode h.quoted.1
  | arrow => exact absurd hmode h.quoted.2
  | plain =>
    have hnone := @run_quoted (s.enter .single) errorsToOutput .single rfl (by decide)
      fun c hc => single_stays fun h => absurd (h ▸ hc) (by decide)
    change (s.enter .single).run errorsToOutput ≠ _
    rw [hnone]
    exact fun h => by cases h
  | single =>
    rw [hmode, Mode.missing] at hlength
    exact hends (h.enter (by decide) (by simp only [Mode.missing]; omega)) rfl
  | double =>
    change (s.add apostrophe .double).run errorsToOutput ≠ _
    rw [run_double rfl]
    exact fun h => by cases h
  | escaped =>
    rw [hmode, Mode.missing] at hlength
    exact hends (h.add (by decide) (by simp only [Mode.missing]; omega)) rfl
  | doubleEscaped =>
    change ((s.add 92 .double).add apostrophe .double).run errorsToOutput ≠ _
    rw [run_double rfl]
    exact fun h => by cases h

/-- What comes behind an apostrophe in the text never completes it. Induction on what is left. -/
theorem Open.ne_run {n : Nat} {rest : List UInt8} (h : Open ws n w s)
    (hn : text.length = n + rest.length + 1) :
    s.run (rest ++ apostrophe :: errorsToOutput) ≠ some [ws ++ [text]] := by
  induction rest generalizing s n w with
  | nil => exact h.close hn
  | cons c rest ih =>
    rw [List.length_cons] at hn
    rw [List.cons_append, run_cons]
    cases hstep : s.step c with
    | none => exact fun h => by cases h
    | some s' =>
      rcases h.step hstep with hshort | ⟨w', hopen⟩
      · exact (hshort.mono (show n + 1 ≤ text.length by omega)).ne_run rfl
      · exact ih hopen (by omega)

theorem foldlM_single {as : List UInt8} (has : apostrophe ∉ as) (hmode : s.mode = .single)
    (hword : s.word = some w) :
    as.foldlM State.step s = some { s with word := some (w ++ as) } := by
  induction as generalizing s w with
  | nil => rw [List.append_nil, ← hword]; rfl
  | cons c as ih =>
    rw [List.mem_cons, not_or] at has
    have hadd : s.add c .single = { s with word := some (w ++ [c]) } := by
      rw [State.add, hword, ← hmode]
      rfl
    have hrest := @ih { s with word := some (w ++ [c]) } (w ++ [c]) has.2 hmode rfl
    rw [List.append_assoc] at hrest
    rw [List.foldlM_cons, single_stays (Ne.symm has.1) s hmode, hadd]
    exact hrest

/-- A text in single quotes is one word if and only if no apostrophe is in it. -/
theorem run_single_quoted (ws : List Word) (text : Word) :
    (State.mk [] ws none false .plain).run
      (apostrophe :: (text ++ apostrophe :: errorsToOutput)) = some [ws ++ [text]] ↔
      apostrophe ∉ text := by
  have hopen : (State.mk [] ws none false .plain).step apostrophe =
      some ⟨[], ws, some [], false, .single⟩ := rfl
  rw [run_cons, hopen, Option.bind_some]
  constructor
  · intro hrun hmem
    obtain ⟨as, bs, rfl, has⟩ := List.eq_append_cons_of_mem hmem
    rw [List.append_assoc, run_append, foldlM_single has rfl rfl, Option.bind_some,
      List.cons_append, run_cons] at hrun
    refine @Open.ne_run ⟨[], ws, some as, false, .plain⟩ ws as (as ++ apostrophe :: bs) as.length bs
      ⟨rfl, rfl, rfl, rfl, ⟨(fun h => by cases h), (fun h => by cases h)⟩, Nat.le_refl _⟩ ?_ hrun
    rw [List.length_append, List.length_cons]
    rfl
  · intro hnot
    rw [run_append, foldlM_single hnot rfl rfl, Option.bind_some]
    simp [run, errorsToOutput, step, onPlain, enter, endWord, add, finish, endCommand, apostrophe]

end State

end Shell
