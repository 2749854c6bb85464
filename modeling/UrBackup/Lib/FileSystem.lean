import Mathlib.Data.List.Basic
import Mathlib.Order.Nat

/-! A file system of directories, files and symbolic links. Links hold paths from the root, so a
lookup may not end; it is given a number of steps. -/

inductive FsObject where
  | dir (id : Nat)
  | file (id : Nat)
  deriving DecidableEq

inductive FsNode where
  | object (o : FsObject)
  | link (target : List String)
  deriving DecidableEq

@[ext]
structure FileSystem where
  entry : Nat → String → Option FsNode
  nextDir : Nat

namespace FileSystem

def root : Nat := 0

/-- What a path leads to from a directory, links followed, if that takes no more than the given
number of steps. -/
def follow (fs : FileSystem) : Nat → Nat → List String → Option FsObject
  | _, d, [] => some (.dir d)
  | 0, _, _ :: _ => none
  | steps + 1, d, name :: rest =>
    match fs.entry d name with
    | none => none
    | some (.object (.dir d')) => follow fs steps d' rest
    | some (.object (.file f)) => if rest = [] then some (.file f) else none
    | some (.link target) => follow fs steps root (target ++ rest)

def place (fs : FileSystem) (steps : Nat) (path : List String) : Option (Nat × String) :=
  match path.getLast?, fs.follow steps root path.dropLast with
  | some name, some (.dir d) => some (d, name)
  | _, _ => none

def lstat (fs : FileSystem) (steps : Nat) (path : List String) : Option FsNode :=
  (fs.place steps path).bind fun (d, name) => fs.entry d name

def readLink (fs : FileSystem) (steps : Nat) (path : List String) : Option (List String) :=
  match fs.lstat steps path with
  | some (.link target) => some target
  | _ => none

def directoryExists (fs : FileSystem) (steps : Nat) (path : List String) : Bool :=
  match fs.follow steps root path with
  | some (.dir _) => true
  | _ => false

def set (fs : FileSystem) (d : Nat) (name : String) (node : Option FsNode) : FileSystem :=
  { fs with entry := fun d' name' => if d' = d ∧ name' = name then node else fs.entry d' name' }

def symlink (fs : FileSystem) (steps : Nat) (target path : List String) : Option FileSystem :=
  (fs.place steps path).bind fun (d, name) =>
    if (fs.entry d name).isNone then some (fs.set d name (some (.link target))) else none

def rename (fs : FileSystem) (steps : Nat) (path newPath : List String) : Option FileSystem :=
  (fs.place steps path).bind fun (d, name) => (fs.place steps newPath).bind fun (d', name') =>
    match fs.entry d name, fs.entry d' name' with
    | some (.object (.dir i)), none =>
      some ((fs.set d name none).set d' name' (some (.object (.dir i))))
    | _, _ => none

def unlink (fs : FileSystem) (steps : Nat) (path : List String) : Option FileSystem :=
  (fs.place steps path).bind fun (d, name) =>
    match fs.entry d name with
    | none => none
    | some (.object (.dir _)) => none
    | some _ => some (fs.set d name none)

def createDir (fs : FileSystem) (steps : Nat) (path : List String) : Option FileSystem :=
  (fs.place steps path).bind fun (d, name) =>
    if (fs.entry d name).isNone then
      some { fs.set d name (some (.object (.dir fs.nextDir))) with nextDir := fs.nextDir + 1 }
    else none

/-- The directories of a path are made one after the other, `todo` are those still to come. -/
def createDirs (fs : FileSystem) (steps : Nat) (done : List String) :
    List String → Option FileSystem
  | [] => some fs
  | name :: todo =>
    if fs.directoryExists steps (done ++ [name]) then createDirs fs steps (done ++ [name]) todo
    else (fs.createDir steps (done ++ [name])).bind fun fs =>
      createDirs fs steps (done ++ [name]) todo

def createDirRecursive (fs : FileSystem) (steps : Nat) (path : List String) : Option FileSystem :=
  createDirs fs steps [] path

/-- A path leads to an object. -/
def Follows (fs : FileSystem) (d : Nat) (path : List String) (o : FsObject) : Prop :=
  ∃ steps, fs.follow steps d path = some o

/-- Every path still leads to what it led to. -/
def Keeps (fs fs' : FileSystem) : Prop :=
  ∀ d path o, fs.Follows d path o → fs'.Follows d path o

section Follow

variable {fs fs' : FileSystem} {d d' steps steps' : Nat} {path rest : List String} {o : FsObject}

theorem follow_mono (hle : steps ≤ steps') (h : fs.follow steps d path = some o) :
    fs.follow steps' d path = some o := by
  induction steps generalizing steps' d path with
  | zero =>
    cases path with
    | nil => cases steps' <;> exact h
    | cons name rest => cases h
  | succ steps ih =>
    cases path with
    | nil => cases steps' <;> exact h
    | cons name rest =>
      obtain ⟨steps', rfl⟩ := Nat.exists_eq_succ_of_ne_zero (show steps' ≠ 0 by omega)
      have hle' : steps ≤ steps' := Nat.le_of_succ_le_succ hle
      unfold follow at h ⊢
      cases hentry : fs.entry d name with
      | none =>
        rw [hentry] at h
        cases h
      | some node =>
        rw [hentry] at h
        cases node with
        | object o =>
          cases o with
          | dir d' => exact ih hle' h
          | file f => exact h
        | link target => exact ih hle' h

theorem Follows.unique {o' : FsObject} (h : fs.Follows d path o) (h' : fs.Follows d path o') :
    o = o' := by
  obtain ⟨steps, h⟩ := h
  obtain ⟨steps', h'⟩ := h'
  have hmax := follow_mono (Nat.le_max_left steps steps') h
  rw [follow_mono (Nat.le_max_right steps steps') h', Option.some.injEq] at hmax
  exact hmax.symm

theorem follows_nil (fs : FileSystem) (d : Nat) : fs.Follows d [] (.dir d) := ⟨0, rfl⟩

theorem follows_dir {name : String} (hentry : fs.entry d name = some (.object (.dir d')))
    (h : fs.Follows d' rest o) : fs.Follows d (name :: rest) o := by
  obtain ⟨steps, h⟩ := h
  refine ⟨steps + 1, ?_⟩
  rw [follow, hentry]
  exact h

theorem follows_link {name : String} {target : List String}
    (hentry : fs.entry d name = some (.link target)) (h : fs.Follows root (target ++ rest) o) :
    fs.Follows d (name :: rest) o := by
  obtain ⟨steps, h⟩ := h
  refine ⟨steps + 1, ?_⟩
  rw [follow, hentry]
  exact h

theorem follows_file {name : String} {f : Nat} (hentry : fs.entry d name = some (.object (.file f))) :
    fs.Follows d [name] (.file f) := by
  refine ⟨1, ?_⟩
  rw [follow, hentry]
  rfl

theorem Follows.append (h : fs.Follows d path (.dir d')) (hrest : fs.Follows d' rest o) :
    fs.Follows d (path ++ rest) o := by
  obtain ⟨steps, h⟩ := h
  induction steps generalizing d path with
  | zero =>
    cases path with
    | nil =>
      cases h
      exact hrest
    | cons name path => cases h
  | succ steps ih =>
    cases path with
    | nil =>
      cases h
      exact hrest
    | cons name path =>
      rw [follow] at h
      split at h
      · cases h
      · rename_i d₁ hentry
        exact follows_dir hentry (ih h)
      · rename_i f hentry
        split at h <;> cases h
      · rename_i target hentry
        apply follows_link hentry
        have happend := ih h
        rw [List.append_assoc] at happend
        exact happend

theorem follows_induction {motive : Nat → List String → FsObject → Prop}
    (nil : ∀ d, motive d [] (.dir d))
    (file : ∀ d name f, fs.entry d name = some (.object (.file f)) → motive d [name] (.file f))
    (dir : ∀ d name d' rest o, fs.entry d name = some (.object (.dir d')) → fs.Follows d' rest o →
      motive d' rest o → motive d (name :: rest) o)
    (link : ∀ d name target rest o, fs.entry d name = some (.link target) →
      fs.Follows root (target ++ rest) o → motive root (target ++ rest) o →
      motive d (name :: rest) o)
    (h : fs.Follows d path o) : motive d path o := by
  obtain ⟨steps, h⟩ := h
  induction steps generalizing d path with
  | zero =>
    cases path with
    | nil =>
      cases h
      exact nil d
    | cons name path => cases h
  | succ steps ih =>
    cases path with
    | nil =>
      cases h
      exact nil d
    | cons name path =>
      rw [follow] at h
      split at h
      · cases h
      · rename_i d₁ hentry
        exact dir d name d₁ path o hentry ⟨steps, h⟩ (ih h)
      · rename_i f hentry
        split at h
        · rename_i hnil
          cases h
          subst hnil
          exact file d name f hentry
        · cases h
      · rename_i target hentry
        exact link d name target path o hentry ⟨steps, h⟩ (ih h)

end Follow

section Keep

variable {fs fs' fs'' : FileSystem} {d d₁ d₂ i : Nat} {name n₁ n₂ : String}
  {path parent : List String} {o : FsObject} {node : FsNode}

theorem Keeps.refl (fs : FileSystem) : Keeps fs fs := fun _ _ _ h => h

theorem Keeps.trans (h : Keeps fs fs') (h' : Keeps fs' fs'') : Keeps fs fs'' :=
  fun d path o hfollows => h' d path o (h d path o hfollows)

theorem keeps_of_entries (h : ∀ d name node, fs.entry d name = some node →
    fs'.entry d name = some node) : Keeps fs fs' := by
  intro d path o hfollows
  refine follows_induction ?_ ?_ ?_ ?_ hfollows
  · exact follows_nil fs'
  · exact fun d name f hentry => follows_file (h d name _ hentry)
  · exact fun d name d' rest o hentry _ ih => follows_dir (h d name _ hentry) ih
  · exact fun d name target rest o hentry _ ih => follows_link (h d name _ hentry) ih

theorem entry_set (fs : FileSystem) (d : Nat) (name : String) (node : Option FsNode) (d' : Nat)
    (name' : String) : (fs.set d name node).entry d' name' =
      if d' = d ∧ name' = name then node else fs.entry d' name' := rfl

theorem keeps_set_none (h : fs.entry d name = none) (node : Option FsNode) :
    Keeps fs (fs.set d name node) := by
  apply keeps_of_entries
  intro d' name' node' hentry
  rw [entry_set, if_neg, hentry]
  rintro ⟨rfl, rfl⟩
  rw [h] at hentry
  cases hentry

/-- A directory that is moved and linked to is still found on every path, if the path of the link
does not go through it. -/
theorem keeps_move (hdir : fs.entry d₁ n₁ = some (.object (.dir i)))
    (hfree : fs.entry d₂ n₂ = none)
    (hparent : (fs.set d₁ n₁ none).Follows root parent (.dir d₂)) :
    Keeps fs (((fs.set d₁ n₁ none).set d₂ n₂ (some (.object (.dir i)))).set d₁ n₁
      (some (.link (parent ++ [n₂])))) := by
  have hne : ¬ (d₂ = d₁ ∧ n₂ = n₁) := by
    rintro ⟨rfl, rfl⟩
    rw [hdir] at hfree
    cases hfree
  generalize hfs' : ((fs.set d₁ n₁ none).set d₂ n₂ (some (.object (.dir i)))).set d₁ n₁
    (some (.link (parent ++ [n₂]))) = fs'
  have hlink : fs'.entry d₁ n₁ = some (.link (parent ++ [n₂])) := by
    rw [← hfs', entry_set, if_pos ⟨rfl, rfl⟩]
  have hnew : fs'.entry d₂ n₂ = some (.object (.dir i)) := by
    rw [← hfs', entry_set, if_neg hne, entry_set, if_pos ⟨rfl, rfl⟩]
  have hother : ∀ d name node, ¬ (d = d₁ ∧ name = n₁) → fs.entry d name = some node →
      fs'.entry d name = some node := by
    intro d name node hd hentry
    rw [← hfs', entry_set, if_neg hd, entry_set, if_neg, entry_set, if_neg hd, hentry]
    rintro ⟨rfl, rfl⟩
    rw [hfree] at hentry
    cases hentry
  have hparent' : fs'.Follows root parent (.dir d₂) := by
    refine keeps_of_entries ?_ root parent _ hparent
    intro d name node hentry
    rw [entry_set] at hentry
    split at hentry
    · cases hentry
    · rename_i hd
      exact hother d name node hd hentry
  intro d path o hfollows
  refine follows_induction ?_ ?_ ?_ ?_ hfollows
  · exact follows_nil fs'
  · intro d name f hentry
    refine follows_file (hother d name _ ?_ hentry)
    rintro ⟨rfl, rfl⟩
    rw [hdir] at hentry
    cases hentry
  · intro d name d' rest o hentry _ ih
    by_cases hd : d = d₁ ∧ name = n₁
    · obtain ⟨rfl, rfl⟩ := hd
      rw [hdir] at hentry
      cases hentry
      apply follows_link hlink
      rw [List.append_assoc]
      exact hparent'.append (follows_dir hnew ih)
    · exact follows_dir (hother d name _ hd hentry) ih
  · intro d name target rest o hentry _ ih
    refine follows_link (hother d name _ ?_ hentry) ih
    rintro ⟨rfl, rfl⟩
    rw [hdir] at hentry
    cases hentry

end Keep

section Place

variable {fs fs' : FileSystem} {steps d d' i : Nat} {path : List String} {n n' : String}

/-- An entry that a path names. -/
def Names (fs : FileSystem) (path : List String) (d : Nat) (n : String) : Prop :=
  ∃ parent, path = parent ++ [n] ∧ fs.Follows root parent (.dir d)

theorem Names.unique (h : fs.Names path d n) (h' : fs.Names path d' n') : d = d' ∧ n = n' := by
  obtain ⟨parent, rfl, hfollows⟩ := h
  obtain ⟨parent', hpath, hfollows'⟩ := h'
  obtain ⟨rfl, hn⟩ := List.append_inj' hpath rfl
  cases hn
  cases hfollows.unique hfollows'
  exact ⟨rfl, rfl⟩

theorem Names.mono (hkeeps : fs.Keeps fs') (h : fs.Names path d n) : fs'.Names path d n := by
  obtain ⟨parent, hpath, hfollows⟩ := h
  exact ⟨parent, hpath, hkeeps root parent _ hfollows⟩

theorem names_of_place (h : fs.place steps path = some (d, n)) : fs.Names path d n := by
  unfold place at h
  split at h
  · rename_i name d' hlast hfollow
    cases h
    refine ⟨path.dropLast, ?_, steps, hfollow⟩
    exact (List.dropLast_append_getLast? n hlast).symm
  · cases h

theorem Names.place (h : fs.Names path d n) :
    ∃ N, ∀ steps, N ≤ steps → fs.place steps path = some (d, n) := by
  obtain ⟨parent, rfl, N, hfollow⟩ := h
  refine ⟨N, ?_⟩
  intro steps hsteps
  unfold FileSystem.place
  rw [List.getLast?_concat, List.dropLast_concat, follow_mono hsteps hfollow]

theorem place_of_follow {o : FsObject} (h : fs.follow steps d (path ++ [n]) = some o) :
    ∃ d' node, fs.follow steps d path = some (.dir d') ∧ fs.entry d' n = some node ∧
      (∀ o', node = .object o' → o' = o) := by
  induction steps generalizing d path with
  | zero => cases path <;> cases h
  | succ steps ih =>
    cases path with
    | nil =>
      rw [List.nil_append, follow] at h
      split at h
      · cases h
      · rename_i d' hentry
        rw [show fs.follow steps d' [] = some (.dir d') by cases steps <;> rfl] at h
        cases h
        exact ⟨d, _, rfl, hentry, by rintro o' ⟨⟩; rfl⟩
      · rename_i f hentry
        cases h
        exact ⟨d, _, rfl, hentry, by rintro o' ⟨⟩; rfl⟩
      · rename_i target hentry
        exact ⟨d, _, rfl, hentry, by rintro o' ⟨⟩⟩
    | cons name path =>
      rw [List.cons_append, follow] at h
      rw [follow]
      split at h
      · cases h
      · exact ih h
      · split at h
        · rename_i hnil
          exact absurd hnil (List.append_ne_nil_of_right_ne_nil path (List.cons_ne_nil n []))
        · cases h
      · rename_i target hentry
        rw [← List.append_assoc] at h
        exact ih h

/-- What is a directory and no link is an entry, unless it is the root. -/
theorem names_of_directoryExists (hdir : fs.directoryExists steps path = true)
    (hlink : fs.readLink steps path = none) :
    path = [] ∨ ∃ d n i, fs.Names path d n ∧ fs.entry d n = some (.object (.dir i)) := by
  unfold directoryExists at hdir
  split at hdir
  · rename_i i hfollow
    cases List.eq_nil_or_concat path with
    | inl hnil => exact .inl hnil
    | inr hconcat =>
      obtain ⟨parent, n, rfl⟩ := hconcat
      rw [List.concat_eq_append] at hfollow hlink ⊢
      obtain ⟨d, node, hparent, hentry, hobject⟩ := place_of_follow hfollow
      have hplace : fs.place steps (parent ++ [n]) = some (d, n) := by
        unfold FileSystem.place
        rw [List.getLast?_concat, List.dropLast_concat, hparent]
      have hlstat : fs.lstat steps (parent ++ [n]) = some node := by
        unfold lstat
        rw [hplace]
        exact hentry
      cases node with
      | object o =>
        cases hobject o rfl
        exact .inr ⟨d, n, i, names_of_place hplace, hentry⟩
      | link target =>
        unfold readLink at hlink
        rw [hlstat] at hlink
        cases hlink
  · cases hdir

end Place

/-- Nothing is lost: every path still leads to what it led to, and a directory that is not where it
was is linked to. Nothing new is in the directories `D`. -/
structure Kept (D : Nat → Prop) (fs fs' : FileSystem) : Prop where
  keeps : Keeps fs fs'
  entries : ∀ d n node, fs.entry d n = some node → fs'.entry d n = some node ∨
    ∃ i target, node = .object (.dir i) ∧ fs'.entry d n = some (.link target) ∧
      fs'.Follows root target (.dir i)
  nothingNew : ∀ d, D d → ∀ n, fs.entry d n = none → fs'.entry d n = none

namespace Kept

variable {D : Nat → Prop} {fs fs' fs'' : FileSystem} {d₁ d₂ i : Nat} {n₁ n₂ : String}
  {parent : List String}

theorem refl (D : Nat → Prop) (fs : FileSystem) : Kept D fs fs :=
  ⟨Keeps.refl fs, fun _ _ _ h => .inl h, fun _ _ _ h => h⟩

theorem trans (h : Kept D fs fs') (h' : Kept D fs' fs'') : Kept D fs fs'' := by
  refine ⟨h.keeps.trans h'.keeps, ?_, ?_⟩
  · intro d n node hentry
    rcases h.entries d n node hentry with hentry' | ⟨i, target, hnode, hlink, hfollows⟩
    · exact h'.entries d n node hentry'
    · refine .inr ⟨i, target, hnode, ?_, h'.keeps root target _ hfollows⟩
      rcases h'.entries d n _ hlink with hlink' | ⟨_, _, hobject, -⟩
      · exact hlink'
      · cases hobject
  · intro d hd n hnone
    exact h'.nothingNew d hd n (h.nothingNew d hd n hnone)

theorem of_entries (hentries : ∀ d n node, fs.entry d n = some node → fs'.entry d n = some node)
    (hnew : ∀ d, D d → ∀ n, fs.entry d n = none → fs'.entry d n = none) : Kept D fs fs' :=
  ⟨keeps_of_entries hentries, fun d n node h => .inl (hentries d n node h), hnew⟩

theorem move (hdir : fs.entry d₁ n₁ = some (.object (.dir i))) (hfree : fs.entry d₂ n₂ = none)
    (hparent : (fs.set d₁ n₁ none).Follows root parent (.dir d₂)) (hD : ¬ D d₂) :
    Kept D fs (((fs.set d₁ n₁ none).set d₂ n₂ (some (.object (.dir i)))).set d₁ n₁
      (some (.link (parent ++ [n₂])))) := by
  have hkeeps := keeps_move hdir hfree hparent
  have hne : ¬ (d₂ = d₁ ∧ n₂ = n₁) := by
    rintro ⟨rfl, rfl⟩
    rw [hdir] at hfree
    cases hfree
  refine ⟨hkeeps, ?_, ?_⟩
  · intro d n node hentry
    by_cases hd : d = d₁ ∧ n = n₁
    · obtain ⟨rfl, rfl⟩ := hd
      rw [hdir] at hentry
      cases hentry
      refine .inr ⟨i, parent ++ [n₂], rfl, ?_, ?_⟩
      · rw [entry_set, if_pos ⟨rfl, rfl⟩]
      · have hparent' : fs.Follows root parent (.dir d₂) := by
          refine keeps_of_entries ?_ root parent _ hparent
          intro d' n' node' hentry'
          rw [entry_set] at hentry'
          split at hentry'
          · cases hentry'
          · exact hentry'
        refine (hkeeps root parent _ hparent').append (follows_dir ?_ (follows_nil _ i))
        rw [entry_set, if_neg hne, entry_set, if_pos ⟨rfl, rfl⟩]
    · refine .inl ?_
      rw [entry_set, if_neg hd, entry_set, if_neg, entry_set, if_neg hd, hentry]
      rintro ⟨rfl, rfl⟩
      rw [hfree] at hentry
      cases hentry
  · intro d hd n hnone
    rw [entry_set, if_neg, entry_set, if_neg, entry_set]
    · split
      · rfl
      · exact hnone
    · rintro ⟨rfl, -⟩
      exact hD hd
    · rintro ⟨rfl, rfl⟩
      rw [hdir] at hnone
      cases hnone

end Kept

section Create

variable {fs fs' : FileSystem} {steps : Nat} {path done todo : List String}

theorem createDir_entries (h : fs.createDir steps path = some fs') (d : Nat) (n : String)
    (node : FsNode) (hentry : fs.entry d n = some node) : fs'.entry d n = some node := by
  obtain ⟨⟨d₁, n₁⟩, -, hset⟩ := Option.bind_eq_some_iff.mp h
  simp only at hset
  split at hset
  · rename_i hnone
    cases hset
    change (fs.set d₁ n₁ _).entry d n = _
    rw [entry_set, if_neg, hentry]
    rintro ⟨rfl, rfl⟩
    rw [hentry] at hnone
    cases hnone
  · cases hset

theorem createDirs_entries (h : fs.createDirs steps done todo = some fs') (d : Nat) (n : String)
    (node : FsNode) (hentry : fs.entry d n = some node) : fs'.entry d n = some node := by
  induction todo generalizing fs done with
  | nil =>
    cases h
    exact hentry
  | cons name todo ih =>
    rw [createDirs] at h
    split at h
    · exact ih h hentry
    · obtain ⟨fs₁, hfirst, hrest⟩ := Option.bind_eq_some_iff.mp h
      exact ih hrest (createDir_entries hfirst d n node hentry)

end Create

end FileSystem
