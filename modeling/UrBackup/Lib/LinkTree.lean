import Mathlib.Data.List.Basic
import Mathlib.Data.List.Infix

/-! A file system as a tree with symbolic links. A place is the list of the names that lead to it,
the innermost first, so that the parent of a place is its tail. Links may be relative and may go
up; a walk over a path follows a bounded number of them. -/
namespace LinkTree

variable {ν : Type*}

inductive Step (ν : Type*) where
  | up
  | here
  | down (name : ν)
  deriving DecidableEq

structure Target (ν : Type*) where
  absolute : Bool
  steps : List (Step ν)
  deriving DecidableEq

inductive Node (ν : Type*) where
  | dir
  | file
  | link (target : Target ν)
  deriving DecidableEq

abbrev Tree (ν : Type*) := List ν → Option (Node ν)

def Target.start (target : Target ν) (parent : List ν) : List ν :=
  if target.absolute then [] else parent

/-- A walk from a directory, up to the first link. What is missing at the end of a path is where it
would be made. -/
def walkIn (t : Tree ν) (onLink : List ν → List (Step ν) → Option (List ν)) :
    List ν → List (Step ν) → Option (List ν)
  | place, [] => some place
  | place, .up :: rest => walkIn t onLink place.tail rest
  | place, .here :: rest => walkIn t onLink place rest
  | place, .down name :: rest =>
    match t (name :: place) with
    | some .dir => walkIn t onLink (name :: place) rest
    | some (.link target) => onLink (target.start place) (target.steps ++ rest)
    | some .file | none => if rest.isEmpty then some (name :: place) else none

/-- The place that a path leads to, if no more than the given number of links is on the way. -/
def walk (t : Tree ν) : Nat → List ν → List (Step ν) → Option (List ν)
  | 0 => walkIn t fun _ _ => none
  | links + 1 => walkIn t (walk t links)

section Calls

variable [DecidableEq ν]

def set (t : Tree ν) (place : List ν) (node : Node ν) : Tree ν :=
  fun place' => if place' = place then some node else t place'

/-- The place of the last component itself, which is in a directory that exists. -/
def entryPlace (t : Tree ν) (links : Nat) (place : List ν) (path : List (Step ν)) :
    Option (List ν) :=
  match path.getLast?, walk t links place path.dropLast with
  | some (.down name), some parent =>
    if t parent = some .dir then some (name :: parent) else none
  | _, _ => none

def make (t : Tree ν) (links : Nat) (place : List ν) (path : List (Step ν)) (node : Node ν) :
    Option (List ν × Tree ν) :=
  (entryPlace t links place path).bind fun q =>
    if (t q).isNone then some (q, set t q node) else none

def replace (t : Tree ν) (links : Nat) (place : List ν) (path : List (Step ν)) :
    Option (List ν × Tree ν) :=
  (entryPlace t links place path).bind fun q =>
    if t q = some .dir then none else some (q, set t q .file)

def openCreate (t : Tree ν) (links : Nat) (place : List ν) (path : List (Step ν)) :
    Option (List ν × Tree ν) :=
  match path.getLast? with
  | some (.down _) => (walk t links place path).bind fun q =>
    if t q = some .dir then none else some (q, set t q .file)
  | _ => none

end Calls

/-- From this far below the base, a path goes up no further than to the base, and only at its
beginning. -/
def Stays (depth : Nat) (path : List (Step ν)) : Prop :=
  ∃ ups body, ups ≤ depth ∧ path = List.replicate ups .up ++ body ∧ .up ∉ body

/-- Every link below the base is relative and stays there. -/
def Sealed (base : List ν) (t : Tree ν) : Prop :=
  ∀ place name target, base <:+ place → t (name :: place) = some (.link target) →
    target.absolute = false ∧ Stays (place.length - base.length) target.steps

/-- No link is below the base. -/
def NoLinks (base : List ν) (t : Tree ν) : Prop :=
  ∀ place name target, base <:+ place → t (name :: place) ≠ some (.link target)

theorem stays_of_not_mem {depth : Nat} {path : List (Step ν)} (h : .up ∉ path) :
    Stays depth path := ⟨0, path, Nat.zero_le depth, rfl, h⟩

theorem Stays.of_up {depth : Nat} {path : List (Step ν)} (h : Stays depth (.up :: path)) :
    ∃ depth', depth = depth' + 1 ∧ Stays depth' path := by
  obtain ⟨ups, body, hle, heq, hbody⟩ := h
  cases ups with
  | zero =>
    rw [List.replicate_zero, List.nil_append] at heq
    rw [← heq] at hbody
    exact absurd List.mem_cons_self hbody
  | succ ups =>
    rw [List.replicate_succ, List.cons_append] at heq
    cases heq
    cases depth with
    | zero => cases hle
    | succ depth => exact ⟨depth, rfl, ups, body, Nat.le_of_succ_le_succ hle, rfl, hbody⟩

theorem Stays.not_mem {depth : Nat} {step : Step ν} {path : List (Step ν)}
    (h : Stays depth (step :: path)) (hne : step ≠ .up) : .up ∉ path := by
  obtain ⟨ups, body, hle, heq, hbody⟩ := h
  cases ups with
  | zero =>
    rw [List.replicate_zero, List.nil_append] at heq
    rw [← heq] at hbody
    exact fun hmem => hbody (List.mem_cons_of_mem step hmem)
  | succ ups =>
    rw [List.replicate_succ, List.cons_append] at heq
    cases heq
    exact absurd rfl hne

theorem Stays.append {depth : Nat} {path rest : List (Step ν)} (h : Stays depth path)
    (hrest : .up ∉ rest) : Stays depth (path ++ rest) := by
  obtain ⟨ups, body, hle, rfl, hbody⟩ := h
  refine ⟨ups, body ++ rest, hle, List.append_assoc _ _ _, ?_⟩
  intro hmem
  exact (List.mem_append.mp hmem).elim hbody hrest

theorem not_mem_of_getLast {path : List (Step ν)} {name : ν}
    (hlast : path.getLast? = some (.down name)) (hpath : .up ∉ path.dropLast) : .up ∉ path := by
  obtain ⟨front, rfl⟩ := List.getLast?_eq_some_iff.mp hlast
  intro hmem
  rw [List.dropLast_concat] at hpath
  cases List.mem_append.mp hmem with
  | inl hfront => exact hpath hfront
  | inr hname => cases List.mem_singleton.mp hname

theorem suffix_tail {base place : List ν} {depth : Nat} (h : base <:+ place)
    (hdepth : place.length - base.length = depth + 1) :
    base <:+ place.tail ∧ place.tail.length - base.length = depth := by
  obtain ⟨below, rfl⟩ := h
  cases below with
  | nil => simp at hdepth
  | cons name below =>
    refine ⟨List.suffix_append below base, ?_⟩
    simp only [List.cons_append, List.length_cons, List.length_append] at hdepth
    simp only [List.cons_append, List.tail_cons, List.length_append]
    omega

/-- A walk that stays below the base while it follows no link ends there. Induction on the path. -/
theorem walkIn_inside {base : List ν} {t : Tree ν}
    {onLink : List ν → List (Step ν) → Option (List ν)} (hsealed : Sealed base t)
    (hlink : ∀ place path q, base <:+ place → Stays (place.length - base.length) path →
      onLink place path = some q → base <:+ q)
    {place q : List ν} {path : List (Step ν)} (hplace : base <:+ place)
    (hpath : Stays (place.length - base.length) path) (h : walkIn t onLink place path = some q) :
    base <:+ q := by
  induction path generalizing place with
  | nil =>
    cases h
    exact hplace
  | cons step rest ih =>
    cases step with
    | up =>
      obtain ⟨depth, hdepth, hrest⟩ := hpath.of_up
      have htail := suffix_tail hplace hdepth
      exact ih htail.1 (htail.2.symm ▸ hrest) h
    | here => exact ih hplace (stays_of_not_mem (hpath.not_mem nofun)) h
    | down name =>
      have hrest := hpath.not_mem nofun
      have hdown : base <:+ name :: place := hplace.trans (List.suffix_cons name place)
      have hend : (if rest.isEmpty then some (name :: place) else none) = some q →
          base <:+ q := by
        intro hq
        split at hq
        · cases hq
          exact hdown
        · cases hq
      cases hnode : t (name :: place) with
      | none =>
        rw [walkIn, hnode] at h
        exact hend h
      | some node =>
        rw [walkIn, hnode] at h
        cases node with
        | dir => exact ih hdown (stays_of_not_mem hrest) h
        | file => exact hend h
        | link target =>
          have ⟨hrel, hsteps⟩ := hsealed place name target hplace hnode
          simp only [Target.start, hrel, Bool.false_eq_true, if_false] at h
          exact hlink place _ q hplace (hsteps.append hrest) h

/-- While every link below the base stays there, so does every walk that would without links.
Induction on the number of links. -/
theorem walk_inside {base : List ν} {t : Tree ν} (hsealed : Sealed base t) {links : Nat}
    {place q : List ν} {path : List (Step ν)} (hplace : base <:+ place)
    (hpath : Stays (place.length - base.length) path) (h : walk t links place path = some q) :
    base <:+ q := by
  induction links generalizing place path q with
  | zero => exact walkIn_inside hsealed (fun _ _ _ _ _ hnone => by cases hnone) hplace hpath h
  | succ links ih => exact walkIn_inside hsealed (fun _ _ _ hp hs hq => ih hp hs hq) hplace hpath h

theorem Sealed.target_inside {base : List ν} {t : Tree ν} (hsealed : Sealed base t) {links : Nat}
    {place q : List ν} {name : ν} {target : Target ν} (hplace : base <:+ place)
    (hlink : t (name :: place) = some (.link target))
    (h : walk t links (target.start place) target.steps = some q) : base <:+ q := by
  have ⟨hrel, hsteps⟩ := hsealed place name target hplace hlink
  simp only [Target.start, hrel, Bool.false_eq_true, if_false] at h
  exact walk_inside hsealed hplace hsteps h

theorem NoLinks.sealed {base : List ν} {t : Tree ν} (h : NoLinks base t) : Sealed base t :=
  fun place name target hplace hlink => absurd hlink (h place name target hplace)

section Downs

variable {t : Tree ν} {onLink : List ν → List (Step ν) → Option (List ν)} {place q : List ν}
  {path rest : List (Step ν)} {name : ν}

def downs : List (Step ν) → List ν
  | [] => []
  | .down name :: path => name :: downs path
  | .here :: path => downs path
  | .up :: path => downs path

theorem downs_append (path rest : List (Step ν)) : downs (path ++ rest) = downs path ++ downs rest := by
  induction path with
  | nil => rfl
  | cons step path ih =>
    cases step with
    | down name => exact congrArg (name :: ·) ih
    | here => exact ih
    | up => exact ih

theorem walk_eq_walkIn (t : Tree ν) (links : Nat) : ∃ onLink, walk t links = walkIn t onLink := by
  cases links with
  | zero => exact ⟨_, rfl⟩
  | succ links => exact ⟨_, rfl⟩

theorem walkIn_dirs (hup : .up ∉ path)
    (hdirs : ∀ front, front <+: downs path → t (front.reverse ++ place) = some .dir) :
    walkIn t onLink place (path ++ rest) = walkIn t onLink ((downs path).reverse ++ place) rest := by
  induction path generalizing place with
  | nil => rfl
  | cons step path ih =>
    have hup' : .up ∉ path := fun hmem => hup (List.mem_cons_of_mem _ hmem)
    cases step with
    | up => exact absurd List.mem_cons_self hup
    | here => exact ih hup' hdirs
    | down name =>
      have hdir : t (name :: place) = some .dir :=
        hdirs [name] (List.prefix_append [name] (downs path))
      rw [List.cons_append, walkIn, hdir]
      dsimp only
      rw [ih hup' fun front hfront => ?_, downs, List.reverse_cons, List.append_assoc]
      · rfl
      · have hlonger := hdirs (name :: front) (List.cons_prefix_cons.mpr ⟨rfl, hfront⟩)
        rwa [List.reverse_cons, List.append_assoc] at hlonger

theorem walkIn_place (hup : .up ∉ path)
    (hnolinks : ∀ front target, front <+: downs path →
      t (front.reverse ++ place) ≠ some (.link target))
    (h : walkIn t onLink place path = some q) : q = (downs path).reverse ++ place := by
  induction path generalizing place with
  | nil =>
    cases h
    rfl
  | cons step path ih =>
    have hup' : .up ∉ path := fun hmem => hup (List.mem_cons_of_mem _ hmem)
    cases step with
    | up => exact absurd List.mem_cons_self hup
    | here => exact ih hup' hnolinks h
    | down name =>
      have hplace : (downs (.down name :: path)).reverse ++ place =
          (downs path).reverse ++ name :: place := by
        rw [downs, List.reverse_cons, List.append_assoc]
        rfl
      have hend : (if path.isEmpty then some (name :: place) else none) = some q →
          q = (downs (.down name :: path)).reverse ++ place := by
        intro hq
        split at hq
        · next hempty =>
            cases hq
            rw [List.isEmpty_iff.mp hempty]
            rfl
        · cases hq
      rw [walkIn] at h
      split at h
      · rw [hplace]
        apply ih hup' _ h
        intro front target hfront hnode
        apply hnolinks (name :: front) target (List.cons_prefix_cons.mpr ⟨rfl, hfront⟩)
        rwa [List.reverse_cons, List.append_assoc]
      · next target hnode =>
          exact absurd hnode (hnolinks [name] target (List.prefix_append [name] _))
      · exact hend h
      · exact hend h

theorem walkIn_passes (hup : .up ∉ path)
    (hnolinks : ∀ front target, front <+: downs path →
      t (front.reverse ++ place) ≠ some (.link target))
    (h : walkIn t onLink place (path ++ rest) = some q) (hrest : rest ≠ [])
    (hne : downs path ≠ []) : t ((downs path).reverse ++ place) = some .dir := by
  induction path generalizing place with
  | nil => exact absurd rfl hne
  | cons step path ih =>
    have hup' : .up ∉ path := fun hmem => hup (List.mem_cons_of_mem _ hmem)
    cases step with
    | up => exact absurd List.mem_cons_self hup
    | here => exact ih hup' hnolinks h hne
    | down first =>
      have hplace : (downs (.down first :: path)).reverse ++ place =
          (downs path).reverse ++ first :: place := by
        rw [downs, List.reverse_cons, List.append_assoc]
        rfl
      rw [List.cons_append, walkIn] at h
      split at h
      · next hdir =>
          rw [hplace]
          by_cases hnone : downs path = []
          · rw [hnone]
            exact hdir
          · apply ih hup' _ h hnone
            intro front target hfront hnode
            apply hnolinks (first :: front) target (List.cons_prefix_cons.mpr ⟨rfl, hfront⟩)
            rwa [List.reverse_cons, List.append_assoc]
      · next target hnode =>
          exact absurd hnode (hnolinks [first] target (List.prefix_append [first] _))
      · rw [if_neg (by simp [hrest])] at h
        cases h
      · rw [if_neg (by simp [hrest])] at h
        cases h

end Downs

section Calls

variable [DecidableEq ν] {base : List ν} {t t' : Tree ν} {links : Nat} {place q : List ν}
  {path : List (Step ν)}

/-- What is written keeps the tree sealed unless it is a link that does not. -/
theorem Sealed.set {node : Node ν} (hsealed : Sealed base t)
    (hnode : ∀ name parent target, q = name :: parent → node = .link target → base <:+ parent →
      target.absolute = false ∧ Stays (parent.length - base.length) target.steps) :
    Sealed base (LinkTree.set t q node) := by
  intro parent name target hparent hlink
  unfold LinkTree.set at hlink
  split at hlink
  next heq =>
    cases hlink
    exact hnode name parent target heq.symm rfl hparent
  next => exact hsealed parent name target hparent hlink

theorem Sealed.set_of_not_link {node : Node ν} (hsealed : Sealed base t)
    (hnode : ∀ target, node ≠ .link target) : Sealed base (LinkTree.set t q node) :=
  hsealed.set fun _ _ target _ heq => absurd heq (hnode target)

theorem entryPlace_inside (hsealed : Sealed base t) (hplace : base <:+ place)
    (hpath : .up ∉ path.dropLast) (h : entryPlace t links place path = some q) :
    ∃ name parent, q = name :: parent ∧ base <:+ parent := by
  unfold entryPlace at h
  split at h
  next name parent _ hwalk =>
    split at h
    · cases h
      exact ⟨name, parent, rfl, walk_inside hsealed hplace (stays_of_not_mem hpath) hwalk⟩
    · cases h
  next => cases h

theorem make_cases {node : Node ν} (h : make t links place path node = some (q, t')) :
    entryPlace t links place path = some q ∧ t q = none ∧ t' = LinkTree.set t q node := by
  obtain ⟨q', hentry, hset⟩ := Option.bind_eq_some_iff.mp h
  split at hset
  next hnone =>
    cases hset
    exact ⟨hentry, Option.isNone_iff_eq_none.mp hnone, rfl⟩
  next => cases hset

theorem replace_cases (h : replace t links place path = some (q, t')) :
    entryPlace t links place path = some q ∧ t q ≠ some .dir ∧ t' = LinkTree.set t q .file := by
  obtain ⟨q', hentry, hset⟩ := Option.bind_eq_some_iff.mp h
  split at hset
  next => cases hset
  next hdir =>
    cases hset
    exact ⟨hentry, hdir, rfl⟩

theorem openCreate_cases (h : openCreate t links place path = some (q, t')) :
    (∃ name, path.getLast? = some (.down name)) ∧ walk t links place path = some q ∧
      t q ≠ some .dir ∧ t' = LinkTree.set t q .file := by
  unfold openCreate at h
  split at h
  next name hlast =>
    obtain ⟨q', hwalk, hset⟩ := Option.bind_eq_some_iff.mp h
    split at hset
    · cases hset
    next hdir =>
      cases hset
      exact ⟨⟨name, hlast⟩, hwalk, hdir, rfl⟩
  next => cases h

theorem set_dir {node : Node ν} {dir : List ν} (hdir : t dir = some .dir) (hq : t q ≠ some .dir) :
    LinkTree.set t q node dir = some .dir := by
  rw [LinkTree.set, if_neg, hdir]
  rintro rfl
  exact hq hdir

section

variable (hsealed : Sealed base t) (hplace : base <:+ place) (hpath : .up ∉ path.dropLast)

include hsealed hplace hpath

theorem replace_inside (h : replace t links place path = some (q, t')) :
    base <:+ q ∧ Sealed base t' := by
  obtain ⟨hentry, _, rfl⟩ := replace_cases h
  obtain ⟨name, parent, rfl, hparent⟩ := entryPlace_inside hsealed hplace hpath hentry
  exact ⟨hparent.trans (List.suffix_cons name parent), hsealed.set_of_not_link nofun⟩

theorem openCreate_inside (h : openCreate t links place path = some (q, t')) :
    base <:+ q ∧ Sealed base t' := by
  obtain ⟨⟨name, hlast⟩, hwalk, _, rfl⟩ := openCreate_cases h
  have hup : .up ∉ path := not_mem_of_getLast hlast hpath
  exact ⟨walk_inside hsealed hplace (stays_of_not_mem hup) hwalk, hsealed.set_of_not_link nofun⟩

theorem make_dir_inside (h : make t links place path .dir = some (q, t')) :
    base <:+ q ∧ Sealed base t' := by
  obtain ⟨hentry, _, rfl⟩ := make_cases h
  obtain ⟨name, parent, rfl, hparent⟩ := entryPlace_inside hsealed hplace hpath hentry
  exact ⟨hparent.trans (List.suffix_cons name parent), hsealed.set_of_not_link nofun⟩

end

theorem make_link_inside {target : Target ν} (hsealed : Sealed base t) (hplace : base <:+ place)
    (hpath : .up ∉ path.dropLast)
    (htarget : ∀ name parent, entryPlace t links place path = some (name :: parent) →
      target.absolute = false ∧ Stays (parent.length - base.length) target.steps)
    (h : make t links place path (.link target) = some (q, t')) : base <:+ q ∧ Sealed base t' := by
  obtain ⟨hentry, _, rfl⟩ := make_cases h
  obtain ⟨name, parent, rfl, hparent⟩ := entryPlace_inside hsealed hplace hpath hentry
  refine ⟨hparent.trans (List.suffix_cons name parent), hsealed.set ?_⟩
  intro name' parent' target' heq hnode _
  cases heq
  cases hnode
  exact htarget name parent hentry

end Calls

end LinkTree
