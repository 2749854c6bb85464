import UrBackup.Web.BackupAccess

/-! A file backup: a tree with relative links, and below `.hashes` another tree with the metadata. A
place is the list of the names that lead to it from the backup, the innermost first. -/
namespace UrBackup

open FileNames BackupAccess
open FileList (dotDot)

/-- The target of a link begins with the way up. Then comes its body. -/
inductive BackupNode where
  | dir
  | file
  | link (ups : Nat) (body : Bytes)
  deriving DecidableEq

structure BackupTree where
  node : List Bytes → Option BackupNode
  /-- What is read from the file at a place. -/
  metadata : List Bytes → Option FileMetadata
  entries : List Bytes → List Bytes
  root : node [] = some .dir
  parent : ∀ name place, node (name :: place) ≠ none → node place = some .dir
  listed : ∀ name place, name ∈ entries place ↔ node (name :: place) ≠ none
  names : ∀ name place, node (name :: place) ≠ none →
    name ≠ [] ∧ nul ∉ name ∧ slash ∉ name ∧ name ≠ dots ∧ name ≠ dotDot
  links : ∀ place ups body, node place = some (.link ups body) →
    ups ≤ place.length - 1 ∧ Plain body ∧ nul ∉ body
  hashesNoLink : ∀ place ups body, node (place ++ [hashes]) ≠ some (.link ups body)
  /-- A directory of the metadata tree belongs to a directory. -/
  mirrored : ∀ place, node (place.map escapeMetadataFn ++ [hashes]) = some .dir →
    node place = some .dir

namespace BackupTree

section Definitions

variable (b : BackupTree)

def tree : LinkTree.Tree Bytes := fun place =>
  (b.node place).map fun node =>
    match node with
    | .dir => .dir
    | .file => .file
    | .link ups body => .link ⟨false, List.replicate ups .up ++ pathSteps body⟩

def maxLinks : Nat := 40

def rest (bpath path : Bytes) : Option Bytes :=
  if bpath.isPrefixOf path then
    match path.drop bpath.length with
    | [] => some []
    | c :: path => if c = slash then some path else none
  else none

def walkPath (bpath path : Bytes) : Option (List Bytes) :=
  (rest bpath path).bind fun path => LinkTree.walk b.tree maxLinks [] (pathSteps path)

def stat (bpath path : Bytes) : Option BackupNode := (b.walkPath bpath path).bind b.node

/-- The place of a path itself. Behind a separator at the end is what it leads to. -/
def lstatPlace (bpath path : Bytes) : Option (List Bytes) :=
  (rest bpath path).bind fun path =>
    match (pathSteps path).getLast? with
    | some (.down _) => LinkTree.entryPlace b.tree maxLinks [] (pathSteps path)
    | _ => LinkTree.walk b.tree maxLinks [] (pathSteps path)

def linkString (ups : Nat) (body : Bytes) : Bytes :=
  (List.replicate ups (dotDot ++ [slash])).flatten ++ body

def isDirEntry (place : List Bytes) (name : Bytes) : Bool :=
  decide ((LinkTree.walk b.tree maxLinks place [.down name]).bind b.node = some .dir)

def dirEntries (place : List Bytes) : List DirEntry :=
  (b.entries place).map fun name => ⟨name, b.isDirEntry place name⟩

def metadataAt (place : List Bytes) : Option FileMetadata :=
  if b.node place = some .file then b.metadata place else none

def served (bpath : Bytes) : ServedFiles where
  getFiles path := (b.walkPath bpath path).bind fun place =>
    if b.node place = some .dir then some (b.dirEntries place) else none
  getFileType path := ((b.lstatPlace bpath path).bind b.node).map fun node =>
    { directory := decide (b.stat bpath path = some .dir)
      symlink := match node with
        | .link _ _ => true
        | _ => false }
  directoryExists path := decide (b.stat bpath path = some .dir)
  getSymlinkTarget path := (b.lstatPlace bpath path).bind fun place =>
    match b.node place with
    | some (.link ups body) => some (linkString ups body)
    | _ => none
  readMetadata path := (b.walkPath bpath path).bind b.metadataAt
  openFile path := decide (b.stat bpath path = some .file)
  names := by
    intro path files hfiles file hfile
    obtain ⟨place, -, hfiles⟩ := Option.bind_eq_some_iff.mp hfiles
    split at hfiles
    · cases hfiles
      obtain ⟨name, hname, rfl⟩ := List.mem_map.mp hfile
      obtain ⟨hne, hnul, -⟩ := b.names name place ((b.listed name place).mp hname)
      exact ⟨hne, hnul⟩
    · cases hfiles

def hashPlace (place : List Bytes) : List Bytes := place.map escapeMetadataFn ++ [hashes]

def ownMetadata (place : List Bytes) : Option FileMetadata := b.metadataAt (hashPlace place)

def dirMetadata (place : List Bytes) : Option FileMetadata :=
  b.metadataAt (metadataDirFn :: hashPlace place)

end Definitions

section Paths

variable {bpath path name body tail : Bytes} {place : List Bytes}

open LinkTree (downs)

theorem rest_append (bpath path : Bytes) : rest bpath (bpath ++ slash :: path) = some path := by
  unfold rest
  rw [if_pos (List.isPrefixOf_iff_prefix.mpr (List.prefix_append _ _)), List.drop_left]
  rfl

theorem rest_self (bpath : Bytes) : rest bpath bpath = some [] := by
  unfold rest
  rw [if_pos (List.isPrefixOf_iff_prefix.mpr (List.prefix_refl _)), List.drop_length]

theorem rest_below {r : Bytes} (h : rest bpath path = some r) :
    rest bpath (below path tail) = some (if path = bpath then tail else below r tail) := by
  unfold rest at h
  split at h
  · next hprefix =>
      obtain ⟨more, rfl⟩ := List.isPrefixOf_iff_prefix.mp hprefix
      rw [List.drop_left] at h
      split at h
      · rw [List.append_nil, if_pos rfl]
        exact rest_append bpath tail
      · next c more =>
          split at h
          · next hc =>
              cases h
              subst hc
              rw [if_neg (by simp)]
              unfold below
              rw [List.append_assoc]
              exact rest_append bpath _
          · cases h
  · cases h

theorem pathSteps_below (h : nul ∉ path) : pathSteps (below path tail) = pathSteps path ++ pathSteps tail := by
  unfold pathSteps below
  have hpath : cStr path = path := by
    rw [← List.append_nil path, cStr_append h]
    rfl
  rw [cStr_append h, cStr_slash, hpath, List.splitOn_append_cons_self, List.map_append]

theorem pathSteps_nil : pathSteps [] = [.here] := rfl

theorem pathSteps_name (h : name ≠ [] ∧ nul ∉ name ∧ slash ∉ name ∧ name ≠ dots ∧ name ≠ dotDot) :
    pathSteps name = [.down name] := by
  obtain ⟨hne, hnul, hslash, hdots, hdotDot⟩ := h
  have hname : cStr name = name := by
    rw [← List.append_nil name, cStr_append hnul]
    rfl
  unfold pathSteps
  rw [hname, List.splitOn_eq_singleton hslash, List.map_singleton]
  unfold pathStep
  rw [if_neg (by simp [hne, hdots]), if_neg hdotDot]

theorem up_notMem_of_plain (hplain : Plain body) (hnul : nul ∉ body) : .up ∉ pathSteps body := by
  have hbody : cStr body = body := by
    rw [← List.append_nil body, cStr_append hnul]
    rfl
  intro hmem
  obtain ⟨component, hcomponent, heq⟩ := List.mem_map.mp hmem
  rw [pathStep_eq_up] at heq
  rw [hbody] at hcomponent
  exact hplain (heq ▸ hcomponent)

/-- The place that the body of a link says from the base on, if no other link is on the way. -/
def bodyPlace (body : Bytes) : List Bytes := (downs (pathSteps body)).reverse

/-- A path says, without links, that a place is meant. -/
structure Says (bpath path : Bytes) (place : List Bytes) : Prop where
  clean : ∃ r, rest bpath path = some r ∧ nul ∉ r
  here : ∀ r, rest bpath path = some r → .up ∉ pathSteps r ∧ (downs (pathSteps r)).reverse = place

theorem says_base (bpath : Bytes) : Says bpath bpath [] := by
  refine ⟨⟨[], rest_self bpath, List.not_mem_nil⟩, fun r hr => ?_⟩
  rw [rest_self] at hr
  cases hr
  exact ⟨by decide, rfl⟩

theorem Says.steps_below (h : Says bpath path place) (tail : Bytes) : ∃ r steps,
    rest bpath (below path tail) = some r ∧ pathSteps r = steps ++ pathSteps tail ∧
      .up ∉ steps ∧ (downs steps).reverse = place ∧ (nul ∉ tail → nul ∉ r) := by
  obtain ⟨r, hr, hnul⟩ := h.clean
  obtain ⟨hup, hplace⟩ := h.here r hr
  have hbelow := @rest_below bpath path tail r hr
  split at hbelow
  · next hbase =>
      subst hbase
      rw [rest_self] at hr
      cases hr
      exact ⟨tail, [], hbelow, rfl, List.not_mem_nil, hplace, id⟩
  · refine ⟨below r tail, pathSteps r, hbelow, pathSteps_below hnul, hup, hplace, fun htail => ?_⟩
    unfold below
    intro hmem
    rcases List.mem_append.mp hmem with hmem | hmem
    · exact hnul hmem
    · rcases List.mem_cons.mp hmem with hmem | hmem
      · exact absurd hmem (by decide)
      · exact htail hmem

theorem Says.below_body (h : Says bpath path place) (hplain : Plain body) (hnul : nul ∉ body) :
    Says bpath (below path body) (bodyPlace body ++ place) := by
  obtain ⟨r, steps, hr, hsteps, hup, hplace, hclean⟩ := h.steps_below body
  refine ⟨⟨r, hr, hclean hnul⟩, fun r' hr' => ?_⟩
  cases hr.symm.trans hr'
  rw [hsteps, LinkTree.downs_append, List.reverse_append, hplace]
  refine ⟨fun hmem => ?_, rfl⟩
  exact (List.mem_append.mp hmem).elim hup (up_notMem_of_plain hplain hnul)

theorem Says.below_name (h : Says bpath path place)
    (hname : name ≠ [] ∧ nul ∉ name ∧ slash ∉ name ∧ name ≠ dots ∧ name ≠ dotDot) :
    Says bpath (below path name) (name :: place) := by
  have hplain : Plain name := by
    unfold Plain
    rw [List.splitOn_eq_singleton hname.2.2.1]
    exact fun hmem => hname.2.2.2.2 (List.mem_singleton.mp hmem).symm
  have hnamed := h.below_body hplain hname.2.1
  have hplace : bodyPlace name = [name] := by
    unfold bodyPlace
    rw [pathSteps_name hname]
    rfl
  rwa [hplace] at hnamed

end Paths

section Walks

variable {b : BackupTree} {bpath path name tail : Bytes} {place q : List Bytes}
  {steps : List (LinkTree.Step Bytes)}

open LinkTree (downs)

theorem tree_eq_dir : b.tree place = some .dir ↔ b.node place = some .dir := by
  unfold tree
  cases b.node place with
  | none => simp
  | some node => cases node <;> simp

theorem tree_eq_link {target : LinkTree.Target Bytes} (h : b.tree place = some (.link target)) :
    ∃ ups body, b.node place = some (.link ups body) := by
  unfold tree at h
  cases hnode : b.node place with
  | none => simp [hnode] at h
  | some node =>
    cases node with
    | dir => simp [hnode] at h
    | file => simp [hnode] at h
    | link ups body => exact ⟨ups, body, rfl⟩

theorem dir_above (front : List Bytes) (h : b.node (front ++ place) = some .dir) :
    b.node place = some .dir := by
  induction front with
  | nil => exact h
  | cons name front ih => exact ih (b.parent name _ (by rw [List.cons_append] at h; simp [h]))

theorem walk_dirs (hup : .up ∉ steps) (hplace : (downs steps).reverse = place)
    (hdir : b.node place = some .dir) (links : Nat) (more : List (LinkTree.Step Bytes)) :
    LinkTree.walk b.tree links [] (steps ++ more) = LinkTree.walk b.tree links place more := by
  obtain ⟨onLink, heq⟩ := LinkTree.walk_eq_walkIn b.tree links
  rw [heq, LinkTree.walkIn_dirs hup, List.append_nil, hplace]
  rintro front ⟨back, hfront⟩
  rw [List.append_nil, tree_eq_dir]
  apply dir_above back.reverse
  rw [← List.reverse_append, hfront, hplace]
  exact hdir

section

variable (h : Says bpath path place) (hdir : b.node place = some .dir)

include h hdir

theorem Says.walkPath_below (tail : Bytes) :
    b.walkPath bpath (below path tail) = LinkTree.walk b.tree maxLinks place (pathSteps tail) := by
  obtain ⟨r, steps, hr, hsteps, hup, hplace, -⟩ := h.steps_below tail
  unfold walkPath
  rw [hr, Option.bind_some, hsteps, walk_dirs hup hplace hdir]

theorem Says.walkPath : b.walkPath bpath path = some place := by
  obtain ⟨r, hr, -⟩ := h.clean
  obtain ⟨hup, hplace⟩ := h.here r hr
  unfold BackupTree.walkPath
  rw [hr, Option.bind_some, ← List.append_nil (pathSteps r), walk_dirs hup hplace hdir]
  obtain ⟨onLink, heq⟩ := LinkTree.walk_eq_walkIn b.tree maxLinks
  rw [heq]
  rfl

theorem Says.lstatPlace_below
    (hname : name ≠ [] ∧ nul ∉ name ∧ slash ∉ name ∧ name ≠ dots ∧ name ≠ dotDot) :
    b.lstatPlace bpath (below path name) = some (name :: place) := by
  obtain ⟨r, steps, hr, hsteps, hup, hplace, -⟩ := h.steps_below name
  unfold lstatPlace
  rw [hr, Option.bind_some, hsteps, pathSteps_name hname, List.getLast?_concat]
  unfold LinkTree.entryPlace
  dsimp only
  rw [List.getLast?_concat, List.dropLast_concat, ← List.append_nil steps,
    walk_dirs hup hplace hdir]
  obtain ⟨onLink, heq⟩ := LinkTree.walk_eq_walkIn b.tree maxLinks
  rw [heq]
  dsimp only [LinkTree.walkIn]
  rw [if_pos (tree_eq_dir.mpr hdir)]

end

theorem hashes_noLink {front : List Bytes} {path : List (LinkTree.Step Bytes)}
    (hpath : (downs path).reverse = place ++ [hashes]) (hfront : front <+: downs path)
    (target : LinkTree.Target Bytes) : b.tree (front.reverse ++ []) ≠ some (.link target) := by
  have hdowns : downs path = hashes :: place.reverse := by
    rw [← List.reverse_reverse (downs path), hpath, List.reverse_append]
    rfl
  intro hlink
  obtain ⟨ups, body, hbody⟩ := tree_eq_link hlink
  rw [List.append_nil] at hbody
  cases front with
  | nil =>
    rw [List.reverse_nil, b.root] at hbody
    cases hbody
  | cons first front =>
    rw [hdowns, List.cons_prefix_cons] at hfront
    rw [hfront.1, List.reverse_cons] at hbody
    exact b.hashesNoLink _ _ _ hbody

theorem Says.hashes_walk (h : Says bpath path (place ++ [hashes]))
    (hwalk : b.walkPath bpath path = some q) : q = place ++ [hashes] := by
  obtain ⟨r, hr, -⟩ := h.clean
  obtain ⟨hup, hplace⟩ := h.here r hr
  unfold BackupTree.walkPath at hwalk
  obtain ⟨onLink, heq⟩ := LinkTree.walk_eq_walkIn b.tree maxLinks
  rw [hr, Option.bind_some, heq] at hwalk
  rw [LinkTree.walkIn_place hup (fun _ target hfront => hashes_noLink hplace hfront target) hwalk,
    hplace, List.append_nil]

theorem Says.hashes_passes (h : Says bpath path (place ++ [hashes]))
    (hwalk : b.walkPath bpath (below path tail) = some q) :
    b.node (place ++ [hashes]) = some .dir := by
  obtain ⟨r, steps, hr, hsteps, hup, hplace, -⟩ := h.steps_below tail
  unfold BackupTree.walkPath at hwalk
  obtain ⟨onLink, heq⟩ := LinkTree.walk_eq_walkIn b.tree maxLinks
  rw [hr, Option.bind_some, heq, hsteps] at hwalk
  have hpassed := LinkTree.walkIn_passes hup
    (fun _ target hfront => hashes_noLink hplace hfront target) hwalk
    (by simp [pathSteps, List.splitOn_ne_nil]) (by
      intro hnone
      rw [hnone] at hplace
      cases place with
      | nil => cases hplace
      | cons first place => cases hplace)
  rwa [tree_eq_dir, hplace, List.append_nil] at hpassed

theorem pathSteps_last (h : slash ∉ cStr name) : pathSteps name = [pathStep (cStr name)] := by
  unfold pathSteps
  rw [List.splitOn_eq_singleton h, List.map_singleton]

theorem pathStep_eq_down {component : Bytes} (h : pathStep component = .down name) :
    component = name := by
  unfold pathStep at h
  split at h
  · cases h
  · split at h
    · cases h
    · cases h
      rfl

theorem metadataAt_eq_some {metadata : FileMetadata} (h : b.metadataAt place = some metadata) :
    b.node place = some .file := by
  unfold metadataAt at h
  split at h
  · assumption
  · cases h

theorem Says.readMetadata (h : Says bpath path (place ++ [hashes])) (hname : slash ∉ cStr name) :
    (b.walkPath bpath (below path name)).bind b.metadataAt =
      b.metadataAt (cStr name :: (place ++ [hashes])) := by
  obtain ⟨onLink, heq⟩ := LinkTree.walk_eq_walkIn b.tree maxLinks
  ext metadata
  constructor
  · intro hread
    obtain ⟨q, hwalk, hmetadata⟩ := Option.bind_eq_some_iff.mp hread
    have hfile := metadataAt_eq_some hmetadata
    have hdir := h.hashes_passes hwalk
    rw [h.walkPath_below hdir, pathSteps_last hname, heq] at hwalk
    generalize hstep : pathStep (cStr name) = step at hwalk
    cases step with
    | up =>
      cases hwalk
      obtain ⟨first, parent, hparent⟩ := List.exists_cons_of_ne_nil
        (List.append_ne_nil_of_right_ne_nil place (List.cons_ne_nil hashes []))
      rw [hparent] at hdir hfile
      rw [List.tail_cons, b.parent first parent (by simp [hdir])] at hfile
      cases hfile
    | here =>
      cases hwalk
      rw [hdir] at hfile
      cases hfile
    | down down =>
      cases pathStep_eq_down hstep
      rw [LinkTree.walkIn] at hwalk
      split at hwalk
      · cases hwalk
        exact hmetadata
      · next target hlink =>
          obtain ⟨ups, body, hbody⟩ := tree_eq_link hlink
          exact absurd hbody (b.hashesNoLink (cStr name :: place) ups body)
      · cases hwalk
        exact hmetadata
      · cases hwalk
        exact hmetadata
  · intro hmetadata
    have hfile := metadataAt_eq_some hmetadata
    have hthere : b.node (cStr name :: (place ++ [hashes])) ≠ none := by simp [hfile]
    have hdir := b.parent (cStr name) (place ++ [hashes]) hthere
    obtain ⟨hne, -, -, hdots, hdotDot⟩ := b.names (cStr name) (place ++ [hashes]) hthere
    have htree : b.tree (cStr name :: (place ++ [hashes])) = some .file := by
      unfold tree
      rw [hfile]
      rfl
    apply Option.bind_eq_some_iff.mpr
    refine ⟨_, ?_, hmetadata⟩
    rw [h.walkPath_below hdir, pathSteps_last hname, heq]
    unfold pathStep
    rw [if_neg (by simp [hne, hdots]), if_neg hdotDot, LinkTree.walkIn, htree]
    rfl

end Walks

end BackupTree

end UrBackup
