import UrBackup.Client.ClientLoop
import Mathlib.Data.List.Nodup

/-! What the end of a backup does to the groups of image backups, when it is in one of them at
most. -/
namespace UrBackup

namespace GroupLedger

variable {l : GroupLedger} {o : Nat}

theorem use_of_not_mem (h : o ∉ l.deleted) : l.use o = l := if_neg h

theorem use_all {os : List Nat} (h : ∀ o ∈ os, o ∉ l.deleted) : os.foldl GroupLedger.use l = l := by
  induction os with
  | nil => rfl
  | cons o os ih =>
    rw [List.foldl_cons, use_of_not_mem (h o List.mem_cons_self)]
    exact ih fun x hx => h x (List.mem_cons_of_mem o hx)

end GroupLedger

namespace ImageGroup

variable {objects : Nat → BackupObject} {o : Nat} {l : GroupLedger} {group : ImageGroup}

theorem taken_sublist (group : ImageGroup) : group.taken.Sublist group.members :=
  List.filter_sublist.map Prod.fst

theorem taken_of_all (h : group.all Prod.snd = true) : group.taken = group.members := by
  unfold taken members
  rw [List.filter_eq_self.mpr (List.all_eq_true.mp h)]

theorem members_mark (group : ImageGroup) (o : Nat) : (group.mark o).members = group.members := by
  unfold mark members
  rw [List.map_map]
  apply List.map_congr_left
  intro m _
  change (if m.1 = o then (m.1, true) else m).1 = m.1
  split
  · rfl
  · rfl

theorem mark_of_not_mem (h : o ∉ group.members) : group.mark o = group := by
  refine (List.map_congr_left ?_).trans (List.map_id group)
  intro m hm
  apply if_neg
  intro heq
  exact h (heq ▸ List.mem_map_of_mem hm)

/-- A member that ends is taken by the group. Induction on the group. -/
theorem taken_mark (hnodup : group.members.Nodup) (hmem : o ∈ group.members)
    (hout : o ∉ group.taken) : (group.mark o).taken.Perm (o :: group.taken) := by
  induction group with
  | nil => cases hmem
  | cons m group ih =>
    obtain ⟨x, ended⟩ := m
    obtain ⟨hx, hrest⟩ := List.nodup_cons.mp hnodup
    cases List.mem_cons.mp hmem with
    | inl heq =>
      change o = x at heq
      subst heq
      have hsame := mark_of_not_mem hx
      cases ended with
      | true => exact absurd List.mem_cons_self hout
      | false =>
        have hmark : mark ((o, false) :: group) o = (o, true) :: group := by
          refine (List.map_cons).trans ?_
          rw [if_pos rfl]
          exact congrArg ((o, true) :: ·) hsame
        rw [hmark]
        exact List.Perm.refl _
    | inr hin =>
      have hne : x ≠ o := fun heq => hx (heq ▸ hin)
      have hmark : mark ((x, ended) :: group) o = (x, ended) :: mark group o := by
        refine (List.map_cons).trans ?_
        rw [if_neg hne]
        rfl
      rw [hmark]
      cases ended with
      | true =>
        have hmarked := ih hrest hin fun h => hout (List.mem_cons_of_mem x h)
        exact (hmarked.cons x).trans (List.Perm.swap o x _)
      | false => exact ih hrest hin hout

theorem check_skip (hmem : o ∉ group.members) (hopen : ∃ m ∈ group, m.2 = false)
    (hkept : ∀ x ∈ group.taken, x ∉ l.deleted) :
    check objects o l group = (false, some group, l) := by
  have hall : ¬ group.all Prod.snd = true := by
    obtain ⟨m, hm, hfalse⟩ := hopen
    intro hall
    exact Bool.false_ne_true (hfalse.symm.trans (List.all_eq_true.mp hall m hm))
  unfold check
  rw [decide_eq_false hmem]
  dsimp only
  rw [if_neg Bool.false_ne_true, if_neg Bool.false_ne_true, GroupLedger.use_all hkept, if_neg hall]

/-- What a finished group leaves: its members are deleted and unlocked, and are complete if all of
them were successful. Induction on the members. -/
theorem finish_eq (success : Bool) {ms : List Nat} (hnodup : ms.Nodup)
    (hkept : ∀ m ∈ ms, m ∉ l.deleted) :
    finish objects success l ms =
      { deleted := l.deleted ++ ms
        completed := l.completed ++ if success then ms else []
        lockedImages := ms.foldl (fun ids m => ids.erase (objects m).backupId) l.lockedImages
        usedDeleted := l.usedDeleted } := by
  induction ms generalizing l with
  | nil =>
    cases success <;> simp [finish]
  | cons m ms ih =>
    obtain ⟨hm, hnodup⟩ := List.nodup_cons.mp hnodup
    have hmkept := hkept m List.mem_cons_self
    unfold finish
    rw [GroupLedger.use_of_not_mem hmkept]
    rw [ih hnodup]
    · cases success with
      | true => simp [GroupLedger.delete, GroupLedger.use, GroupLedger.unlockImageFromCleanup,
          GroupLedger.setImageBackupComplete, hmkept]
      | false => simp [GroupLedger.delete, GroupLedger.use, GroupLedger.unlockImageFromCleanup, hmkept]
    · intro x hx hdeleted
      have hdeleted : x ∈ l.deleted ++ [m] := by
        cases success with
        | true => exact hdeleted
        | false => exact hdeleted
      cases List.mem_append.mp hdeleted with
      | inl hold => exact hkept x (List.mem_cons_of_mem m hx) hold
      | inr heq => exact hm (List.mem_singleton.mp heq ▸ hx)

theorem check_member (hmem : o ∈ group.members) (hnodup : group.members.Nodup)
    (hout : o ∉ group.taken) (ho : o ∉ l.deleted) (hkept : ∀ x ∈ group.taken, x ∉ l.deleted) :
    check objects o l group =
      if (group.mark o).all Prod.snd then
        (true, none, finish objects (group.members.all fun m => (objects m).getResult)
          (l.lockImageFromCleanup (objects o).backupId) group.members)
      else (true, some (group.mark o), l.lockImageFromCleanup (objects o).backupId) := by
  have hused : (group.mark o).taken.foldl GroupLedger.use
      (l.lockImageFromCleanup (objects o).backupId) =
        l.lockImageFromCleanup (objects o).backupId := by
    apply GroupLedger.use_all
    intro x hx
    have hx := (taken_mark hnodup hmem hout).mem_iff.mp hx
    cases List.mem_cons.mp hx with
    | inl heq => exact heq ▸ ho
    | inr hold => exact hkept x hold
  unfold check
  rw [decide_eq_true hmem]
  dsimp only
  rw [if_pos rfl, if_pos rfl, GroupLedger.use_of_not_mem ho, hused, members_mark]

/-- The backup is in none of the groups. Induction on the groups. -/
theorem checkAll_skip {groups : List ImageGroup} (hmem : ∀ group ∈ groups, o ∉ group.members)
    (hopen : ∀ group ∈ groups, ∃ m ∈ group, m.2 = false)
    (hkept : ∀ group ∈ groups, ∀ x ∈ group.taken, x ∉ l.deleted) :
    checkAll objects o l groups = (false, groups, l) := by
  induction groups with
  | nil => rfl
  | cons group groups ih =>
    unfold checkAll
    rw [check_skip (hmem _ List.mem_cons_self) (hopen _ List.mem_cons_self)
      (hkept _ List.mem_cons_self)]
    dsimp only
    rw [ih (fun g hg => hmem g (List.mem_cons_of_mem _ hg))
      (fun g hg => hopen g (List.mem_cons_of_mem _ hg))
      (fun g hg => hkept g (List.mem_cons_of_mem _ hg))]
    rfl

/-- The backup is in one of the groups. Induction on those before it. -/
theorem checkAll_split {before after : List ImageGroup} {isMember : Bool}
    {stays : Option ImageGroup} {l' : GroupLedger}
    (hmem : ∀ group ∈ before ++ after, o ∉ group.members)
    (hopen : ∀ group ∈ before ++ after, ∃ m ∈ group, m.2 = false)
    (hbefore : ∀ group ∈ before, ∀ x ∈ group.taken, x ∉ l.deleted)
    (hafter : ∀ group ∈ after, ∀ x ∈ group.taken, x ∉ l'.deleted)
    (hcheck : check objects o l group = (isMember, stays, l')) :
    checkAll objects o l (before ++ group :: after) =
      (isMember, before ++ (stays.toList ++ after), l') := by
  induction before with
  | nil =>
    rw [List.nil_append]
    unfold checkAll
    rw [hcheck]
    dsimp only
    rw [List.nil_append] at hmem hopen
    rw [checkAll_skip hmem hopen hafter, Bool.or_false]
    rfl
  | cons first before ih =>
    rw [List.cons_append]
    unfold checkAll
    rw [check_skip (hmem _ List.mem_cons_self) (hopen _ List.mem_cons_self)
      (hbefore _ List.mem_cons_self)]
    dsimp only
    rw [ih (fun g hg => hmem g (List.mem_cons_of_mem _ hg))
      (fun g hg => hopen g (List.mem_cons_of_mem _ hg))
      (fun g hg => hbefore g (List.mem_cons_of_mem _ hg)), Bool.false_or]
    rfl

end ImageGroup

end UrBackup
