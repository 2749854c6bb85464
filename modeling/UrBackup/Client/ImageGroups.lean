import UrBackup.Client.GroupChecks
import UrBackup.Lib.Counting
import Mathlib.Data.List.Flatten
import Mathlib.Data.List.Pairwise

/-! The groups of image backups complete together and leave nothing behind, as long as no member
of a group names further volumes, no group has an ended member when the loop is left, and none
would be complete behind it. -/
namespace UrBackup

namespace ClientLoop

/-- The backup was successful. -/
def Succeeded (s : ClientLoop) (o : Nat) : Prop := (s.objects o).getResult = true

/-- No object is used after it was deleted. Images of a group are set complete only together; and
when the loop was left, every object is deleted, a group is complete if and only if all its backups
were successful, and no image is locked. -/
structure GroupsSettled (s : ClientLoop) : Prop where
  used : s.ledger.usedDeleted = false
  deletedOnce : s.ledger.deleted.Nodup
  together : ∀ group ∈ s.formed, (∃ o ∈ group, o ∈ s.ledger.completed) →
    ∀ o ∈ group, o ∈ s.ledger.completed ∧ s.Succeeded o
  left : s.pc = .left → (∀ o < s.created, o ∈ s.ledger.deleted) ∧
    (∀ group ∈ s.formed, (∀ o ∈ group, o ∈ s.ledger.completed) ↔ ∀ o ∈ group, s.Succeeded o) ∧
    s.ledger.lockedImages = []

/-- The thread is in its loop. -/
def looping (s : ClientLoop) : Prop := s.pc ≠ .leaving ∧ s.pc ≠ .left

instance (s : ClientLoop) : Decidable s.looping := inferInstanceAs (Decidable (_ ∧ _))

/-- No member of a group names further volumes. The loop is left only when no member of a group
has been removed from the queue, and no group is successful as a whole then, or is so when a backup
ends behind the loop. -/
def GroupsOk (s : ClientLoop) : Event → Prop
  | .readShadowData o dependencies =>
    dependencies = 0 ∨ ∀ group ∈ s.runningImageGroups, o ∉ group.members
  | .exit => ∀ group ∈ s.runningImageGroups, group.taken = [] ∧
      ∃ m ∈ group.members, (s.objects m).getResult = false
  | .endBackup o result _ => s.looping ∨ result = false ∨
      ∀ group ∈ s.runningImageGroups, o ∈ group.members →
        ∃ m ∈ group.members, m ≠ o ∧ (s.objects m).getResult = false
  | .queueBackup _ | .startBackup _ | .loop | .addBackupToDatabase _ _ _ | .endPartition _ => True

instance (s : ClientLoop) (e : Event) : Decidable (GroupsOk s e) :=
  match e with
  | .readShadowData _ _ => inferInstanceAs (Decidable (_ ∨ _))
  | .exit => inferInstanceAs (Decidable (∀ _ ∈ _, _ ∧ _))
  | .endBackup _ _ _ => inferInstanceAs (Decidable (_ ∨ _ ∨ ∀ _ ∈ _, _ → _))
  | .queueBackup _ | .startBackup _ | .loop | .addBackupToDatabase _ _ _ | .endPartition _ =>
    .isTrue trivial

namespace ImageGroups

def taken (s : ClientLoop) : List Nat := s.runningImageGroups.flatMap ImageGroup.taken

/-- A group that is done. -/
structure Settled (objects : Nat → BackupObject) (l : GroupLedger) (group : List Nat) : Prop where
  deleted : ∀ o ∈ group, o ∈ l.deleted
  completed : ∀ o ∈ group, o ∈ l.completed ↔ ∀ m ∈ group, (objects m).getResult = true

/-- A group that is not done. -/
structure Pending (groups : List ImageGroup) (l : GroupLedger) (group : List Nat) : Prop where
  running : group ∈ groups.map ImageGroup.members
  completed : ∀ o ∈ group, o ∉ l.completed

/-- Every object is in the queue, or has to be deleted by a group, or is deleted. -/
structure Inv (s : ClientLoop) : Prop where
  owned : ∀ o, s.queue.count o + (taken s).count o + s.ledger.deleted.count o =
    if o < s.created then 1 else 0
  running : ∀ o, (s.objects o).isRunning = true → o ∈ s.queue
  groups : (s.runningImageGroups.map ImageGroup.members).Sublist s.formed
  disjoint : s.formed.flatten.Nodup
  below : ∀ o ∈ s.formed.flatten, o < s.created
  fresh : ∀ o, (s.objects o).dependencies ≠ 0 → o ∉ s.formed.flatten
  images : ∀ group ∈ s.runningImageGroups, ∀ o ∈ group.members,
    (s.objects o).isFileBackup = false
  locks : s.ledger.lockedImages.Perm ((taken s).map fun o => (s.objects o).backupId)
  used : s.ledger.usedDeleted = false
  completed : ∀ o ∈ s.ledger.completed, o ∈ s.ledger.deleted
  settled : ∀ group ∈ s.formed, Settled s.objects s.ledger group ∨
    Pending s.runningImageGroups s.ledger group
  opened : looping s → ∀ group ∈ s.runningImageGroups, ∃ m ∈ group, m.2 = false
  waiting : looping s → ∀ group ∈ s.runningImageGroups, ∀ m ∈ group, m.2 = false → m.1 ∈ s.queue
  stopped : ¬ looping s → ∀ group ∈ s.runningImageGroups, group.taken = [] ∧
    ∃ m ∈ group.members, (s.objects m).getResult = false
  left : s.pc = .left → s.queue = []

variable {s s' : ClientLoop} {o : Nat}

theorem initial_inv : Inv initial where
  owned _ := rfl
  running _ h := absurd h Bool.false_ne_true
  groups := List.Sublist.slnil
  disjoint := List.nodup_nil
  below _ h := absurd h List.not_mem_nil
  fresh _ _ := List.not_mem_nil
  images _ h := absurd h List.not_mem_nil
  locks := List.Perm.nil
  used := rfl
  completed _ h := absurd h List.not_mem_nil
  settled _ h := absurd h List.not_mem_nil
  opened _ _ h := absurd h List.not_mem_nil
  waiting _ _ h := absurd h List.not_mem_nil
  stopped _ _ h := absurd h List.not_mem_nil
  left _ := rfl

section Owners

theorem Inv.not_deleted (h : Inv s) (ho : o ∈ s.queue) : o ∉ s.ledger.deleted := by
  intro hdeleted
  have howned := h.owned o
  have hqueue := List.count_pos_iff.mpr ho
  have hgone := List.count_pos_iff.mpr hdeleted
  split at howned
  next => omega
  next => omega

theorem Inv.not_taken (h : Inv s) (ho : o ∈ s.queue) : o ∉ taken s := by
  intro htaken
  have howned := h.owned o
  have hqueue := List.count_pos_iff.mpr ho
  have hgone := List.count_pos_iff.mpr htaken
  split at howned
  next => omega
  next => omega

theorem Inv.taken_not_deleted (h : Inv s) (ho : o ∈ taken s) : o ∉ s.ledger.deleted := by
  intro hdeleted
  have howned := h.owned o
  have htaken := List.count_pos_iff.mpr ho
  have hgone := List.count_pos_iff.mpr hdeleted
  split at howned
  next => omega
  next => omega

theorem Inv.lt_created (h : Inv s) (ho : o ∈ s.queue) : o < s.created := by
  by_contra hnot
  have howned := h.owned o
  have hqueue := List.count_pos_iff.mpr ho
  rw [if_neg hnot] at howned
  omega

theorem Inv.use (h : Inv s) (ho : o ∈ s.queue) : s.ledger.use o = s.ledger :=
  GroupLedger.use_of_not_mem (h.not_deleted ho)

end Owners

/-- The claim of the invariant about the groups. -/
theorem Inv.groupsSettled (h : Inv s) : GroupsSettled s where
  used := h.used
  deletedOnce := by
    apply List.nodup_iff_count_le_one.mpr
    intro o
    have howned := h.owned o
    split at howned
    next => omega
    next => omega
  together := by
    intro group hgroup hsome o ho
    obtain ⟨m, hm, hcompleted⟩ := hsome
    cases h.settled group hgroup with
    | inl hsettled =>
      have hall := (hsettled.completed m hm).mp hcompleted
      exact ⟨(hsettled.completed o ho).mpr hall, hall o ho⟩
    | inr hpending => exact absurd hcompleted (hpending.completed m hm)
  left := by
    intro hleft
    have hout : ¬ looping s := fun hlooping => hlooping.2 hleft
    have htaken : taken s = [] :=
      List.flatMap_eq_nil_iff.mpr fun group hgroup => (h.stopped hout group hgroup).1
    have hlocks := h.locks
    rw [htaken] at hlocks
    refine ⟨?_, ?_, List.perm_nil.mp hlocks⟩
    · intro o ho
      have howned := h.owned o
      rw [h.left hleft, htaken, if_pos ho, List.count_nil] at howned
      exact List.count_pos_iff.mp (by omega)
    · intro group hgroup
      cases h.settled group hgroup with
      | inl hsettled =>
        constructor
        · intro hall o ho
          exact (hsettled.completed o ho).mp (hall o ho) o ho
        · exact fun hall o ho => (hsettled.completed o ho).mpr hall
      | inr hpending =>
        obtain ⟨running, hrunning, hmembers⟩ := List.mem_map.mp hpending.running
        obtain ⟨m, hm, hfailed⟩ := (h.stopped hout running hrunning).2
        rw [hmembers] at hm
        constructor
        · exact fun hall => absurd (hall m hm) (hpending.completed m hm)
        · intro hall
          exact absurd (hfailed.symm.trans (hall m hm)) Bool.false_ne_true

section Steps

theorem Inv.move (h : Inv s) (hlooping : looping s) {pc : LoopAt}
    (hpc : pc ≠ .leaving ∧ pc ≠ .left) : Inv { s with pc := pc } :=
  { h with
    opened := fun _ => h.opened hlooping
    waiting := fun _ => h.waiting hlooping
    stopped := fun hout => absurd hpc hout
    left := fun hleft => absurd hleft hpc.2 }

theorem Inv.setObject (h : Inv s) (ho : o ∈ s.queue) {b : BackupObject}
    (hdependencies : b.dependencies ≠ 0 → o ∉ s.formed.flatten)
    (himage : b.isFileBackup = (s.objects o).isFileBackup)
    (hresult : looping s ∨ b.getResult = false ∨ ∀ group ∈ s.runningImageGroups,
      o ∈ group.members → ∃ m ∈ group.members, m ≠ o ∧ (s.objects m).getResult = false) :
    Inv (s.setObject o b) := by
  have hother {x : Nat} (hx : x ≠ o) : (s.setObject o b).objects x = s.objects x := if_neg hx
  have hown : (s.setObject o b).objects o = b := if_pos rfl
  exact
    { h with
      running := by
        intro x hx
        by_cases heq : x = o
        · rw [heq]
          exact ho
        · rw [hother heq] at hx
          exact h.running x hx
      fresh := by
        intro x hx
        by_cases heq : x = o
        · rw [heq, hown] at hx
          rw [heq]
          exact hdependencies hx
        · rw [hother heq] at hx
          exact h.fresh x hx
      images := by
        intro group hgroup x hx
        have hold := h.images group hgroup x hx
        by_cases heq : x = o
        · rw [heq] at hold
          rw [heq, hown, himage]
          exact hold
        · rw [hother heq]
          exact hold
      locks := by
        refine h.locks.trans (List.Perm.of_eq (List.map_congr_left ?_))
        intro x hx
        rw [hother fun heq => h.not_taken ho (heq ▸ hx)]
      settled := by
        intro group hgroup
        refine (h.settled group hgroup).imp ?_ id
        intro hsettled
        refine ⟨hsettled.deleted, fun x hx => (hsettled.completed x hx).trans ?_⟩
        refine forall₂_congr fun m hm => ?_
        rw [hother fun heq => h.not_deleted ho (heq ▸ hsettled.deleted m hm)]
      stopped := by
        intro hout group hgroup
        obtain ⟨htaken, x, hx, hfailed⟩ := h.stopped hout group hgroup
        refine ⟨htaken, ?_⟩
        by_cases heq : x = o
        · cases hresult.resolve_left hout with
          | inl hb =>
            refine ⟨x, hx, ?_⟩
            rw [heq, hown]
            exact hb
          | inr hanother =>
            obtain ⟨m, hm, hne, hm'⟩ := hanother group hgroup (heq ▸ hx)
            refine ⟨m, hm, ?_⟩
            rw [hother hne]
            exact hm'
        · refine ⟨x, hx, ?_⟩
          rw [hother heq]
          exact hfailed }

theorem Inv.addObjects (h : Inv s) (hlooping : looping s) {objects : Nat → BackupObject} {n : Nat}
    (hold : ∀ x < s.created, objects x = s.objects x)
    (hnew : ∀ x, s.created ≤ x → objects x = s.objects x ∨ (objects x).isRunning = false ∧
      (objects x).dependencies = 0) :
    Inv { s with
      objects := objects
      created := s.created + n
      queue := s.queue ++ List.range' s.created n } := by
  have hcreated {x : Nat} (hx : 0 < (taken s).count x + s.ledger.deleted.count x) :
      objects x = s.objects x := by
    apply hold
    by_contra hnot
    have howned := h.owned x
    rw [if_neg hnot] at howned
    omega
  have htaken {x : Nat} (hx : x ∈ taken s) : objects x = s.objects x :=
    hcreated (Nat.add_pos_left (List.count_pos_iff.mpr hx) _)
  have hdeleted {x : Nat} (hx : x ∈ s.ledger.deleted) : objects x = s.objects x :=
    hcreated (Nat.add_pos_right _ (List.count_pos_iff.mpr hx))
  have hformed {x : Nat} (hx : x ∈ s.formed.flatten) : objects x = s.objects x :=
    hold x (h.below x hx)
  have hmember {group : ImageGroup} (hgroup : group ∈ s.runningImageGroups) {x : Nat}
      (hx : x ∈ group.members) : x ∈ s.formed.flatten :=
    List.mem_flatten_of_mem (h.groups.subset (List.mem_map_of_mem hgroup)) hx
  exact
    { h with
      owned := by
        intro x
        have howned := h.owned x
        change (s.queue ++ List.range' s.created n).count x + _ + _ = _
        rw [List.count_append, List.count_range_1']
        change _ + (taken s).count x + s.ledger.deleted.count x = _
        by_cases hx : x < s.created
        · rw [if_pos hx] at howned
          rw [if_neg fun hnew => Nat.not_lt.mpr hnew.1 hx, if_pos (Nat.lt_add_right n hx)]
          omega
        · rw [if_neg hx] at howned
          by_cases hnew : x < s.created + n
          · rw [if_pos ⟨Nat.not_lt.mp hx, hnew⟩, if_pos hnew]
            omega
          · rw [if_neg fun hin => hnew hin.2, if_neg hnew]
            omega
      running := by
        intro x hx
        refine List.mem_append_left _ (h.running x ?_)
        by_cases hlt : x < s.created
        · rw [← hold x hlt]
          exact hx
        · cases hnew x (Nat.not_lt.mp hlt) with
          | inl hsame =>
            rw [← hsame]
            exact hx
          | inr hstopped => exact absurd (hstopped.1.symm.trans hx) Bool.false_ne_true
      below := fun x hx => Nat.lt_add_right n (h.below x hx)
      fresh := by
        intro x hx hformed
        have hsame := hold x (h.below x hformed)
        change (objects x).dependencies ≠ 0 at hx
        rw [hsame] at hx
        exact h.fresh x hx hformed
      images := by
        intro group hgroup x hx
        change (objects x).isFileBackup = false
        rw [hformed (hmember hgroup hx)]
        exact h.images group hgroup x hx
      locks := by
        refine h.locks.trans (List.Perm.of_eq (List.map_congr_left ?_))
        intro x hx
        exact congrArg BackupObject.backupId (htaken hx).symm
      settled := by
        intro group hgroup
        refine (h.settled group hgroup).imp ?_ id
        intro hsettled
        refine ⟨hsettled.deleted, fun x hx => (hsettled.completed x hx).trans ?_⟩
        refine forall₂_congr fun m hm => ?_
        change _ ↔ (objects m).getResult = true
        rw [hdeleted (hsettled.deleted m hm)]
      waiting := fun _ group hgroup m hm hfalse =>
        List.mem_append_left _ (h.waiting hlooping group hgroup m hm hfalse)
      stopped := fun hout => absurd hlooping hout
      left := fun hleft => absurd hleft hlooping.2 }

theorem Inv.addGroup (h : Inv s) {group : List Nat} (hne : group ≠ [])
    (hnodup : group.Nodup) (hqueue : ∀ o ∈ group, o ∈ s.queue)
    (hfresh : ∀ o ∈ group, o ∉ s.formed.flatten ∧ (s.objects o).dependencies = 0 ∧
      (s.objects o).isFileBackup = false) (hlooping : looping s) :
    Inv { s with
      runningImageGroups := s.runningImageGroups ++ [group.map fun m => (m, false)]
      formed := s.formed ++ [group] } := by
  have hmembers : ImageGroup.members (group.map fun m => (m, false)) = group := by
    unfold ImageGroup.members
    rw [List.map_map]
    exact List.map_id group
  have hnone : ImageGroup.taken (group.map fun m => (m, false)) = [] := by
    unfold ImageGroup.taken
    rw [List.filter_eq_nil_iff.mpr, List.map_nil]
    intro m hm
    obtain ⟨x, _, rfl⟩ := List.mem_map.mp hm
    exact Bool.false_ne_true
  have htaken : (s.runningImageGroups ++ [group.map fun m => (m, false)]).flatMap
      ImageGroup.taken = taken s := by
    rw [List.flatMap_append, List.flatMap_singleton, hnone, List.append_nil]
    rfl
  have hflatten : (s.formed ++ [group]).flatten = s.formed.flatten ++ group := by
    rw [List.flatten_append, List.flatten_singleton]
  have hcases {P : ImageGroup → Prop} (hold : ∀ g ∈ s.runningImageGroups, P g)
      (hnew : P (group.map fun m => (m, false))) :
      ∀ g ∈ s.runningImageGroups ++ [group.map fun m => (m, false)], P g := by
    intro g hg
    cases List.mem_append.mp hg with
    | inl hin => exact hold g hin
    | inr heq =>
      rw [List.mem_singleton.mp heq]
      exact hnew
  exact
    { h with
      owned := by
        intro o
        change s.queue.count o + (List.flatMap ImageGroup.taken (_ ++ [_])).count o + _ = _
        rw [htaken]
        exact h.owned o
      groups := by
        change List.Sublist (List.map _ (_ ++ [_])) (_ ++ [_])
        rw [List.map_append, List.map_singleton, hmembers]
        exact h.groups.append (List.Sublist.refl _)
      disjoint := by
        change (s.formed ++ [group]).flatten.Nodup
        rw [hflatten]
        refine List.nodup_append'.mpr ⟨h.disjoint, hnodup, ?_⟩
        intro o hold hnew
        exact (hfresh o hnew).1 hold
      below := by
        intro o ho
        change o ∈ (s.formed ++ [group]).flatten at ho
        rw [hflatten] at ho
        cases List.mem_append.mp ho with
        | inl hold => exact h.below o hold
        | inr hnew => exact h.lt_created (hqueue o hnew)
      fresh := by
        intro o hdependencies ho
        change o ∈ (s.formed ++ [group]).flatten at ho
        rw [hflatten] at ho
        cases List.mem_append.mp ho with
        | inl hold => exact h.fresh o hdependencies hold
        | inr hnew => exact hdependencies (hfresh o hnew).2.1
      images := by
        apply hcases h.images
        rw [hmembers]
        exact fun o ho => (hfresh o ho).2.2
      locks := by
        change List.Perm _ (List.map _ (List.flatMap ImageGroup.taken (_ ++ [_])))
        rw [htaken]
        exact h.locks
      settled := by
        intro g hg
        cases List.mem_append.mp hg with
        | inl hold =>
          refine (h.settled g hold).imp id ?_
          intro hpending
          refine ⟨?_, hpending.completed⟩
          rw [List.map_append]
          exact List.mem_append_left _ hpending.running
        | inr hnew =>
          rw [List.mem_singleton.mp hnew]
          refine .inr ⟨?_, ?_⟩
          · rw [List.map_append, List.map_singleton, hmembers]
            exact List.mem_append_right _ (List.mem_singleton_self _)
          · exact fun o ho hcompleted => h.not_deleted (hqueue o ho) (h.completed o hcompleted)
      opened := by
        intro _
        refine hcases (h.opened hlooping) ?_
        obtain ⟨o, rest, rfl⟩ := List.exists_cons_of_ne_nil hne
        exact ⟨(o, false), List.mem_cons_self, rfl⟩
      waiting := by
        intro _
        refine hcases (h.waiting hlooping) ?_
        intro m hm _
        obtain ⟨o, ho, rfl⟩ := List.mem_map.mp hm
        exact hqueue o ho
      stopped := fun hout => absurd hlooping hout
      left := fun hleft => absurd hleft hlooping.2 }

theorem Inv.queueBackup (h : Inv s) {isFileBackup : Bool}
    (hstep : s.queueBackup isFileBackup = some s') : Inv s' := by
  unfold ClientLoop.queueBackup at hstep
  split at hstep
  next hpc =>
    cases hstep
    have hlooping : looping s := by rw [looping, hpc]; exact ⟨nofun, nofun⟩
    have hmade := @Inv.addObjects s h hlooping (s.setObject s.created (.make isFileBackup)).objects
      1 (fun x hx => if_neg (Nat.ne_of_lt hx)) (by
        intro x _
        by_cases hx : x = s.created
        · refine .inr ⟨?_, ?_⟩
          · exact congrArg BackupObject.isRunning (if_pos hx)
          · exact congrArg BackupObject.dependencies (if_pos hx)
        · exact .inl (if_neg hx))
    exact { hmade with }
  next => cases hstep

theorem Inv.startBackup (h : Inv s) {i : Nat} (hstep : s.startBackup i = some s') : Inv s' := by
  unfold ClientLoop.startBackup at hstep
  split at hstep
  next => cases hstep
  next o hi =>
    split at hstep
    next hphase =>
      have ho := List.mem_of_getElem? hi
      rw [h.use ho] at hstep
      cases hstep
      have hlooping : looping s := by rw [looping, hphase.1]; exact ⟨(by simp), (by simp)⟩
      have hset := @Inv.setObject s o h ho { s.objects o with phase := .started } (h.fresh o)
        rfl (.inl hlooping)
      exact { hset with }
    next => cases hstep

theorem getResult_of_isRunning {b : BackupObject} (h : b.isRunning = true) :
    b.getResult = false := by
  unfold BackupObject.isRunning at h
  unfold BackupObject.getResult
  split at h
  next hphase => rw [hphase]
  next hphase => rw [hphase]
  next hphase => rw [hphase]
  all_goals cases h

theorem Inv.setRunning (h : Inv s) (hrunning : (s.objects o).isRunning = true) {b : BackupObject}
    (hdependencies : b.dependencies = (s.objects o).dependencies)
    (himage : b.isFileBackup = (s.objects o).isFileBackup)
    (hresult : looping s ∨ b.getResult = false ∨ ∀ group ∈ s.runningImageGroups,
      o ∈ group.members → ∃ m ∈ group.members, m ≠ o ∧ (s.objects m).getResult = false) :
    Inv { s.setObject o b with ledger := s.ledger.use o } := by
  have ho := h.running o hrunning
  rw [h.use ho]
  have hset := @Inv.setObject s o h ho b (by rw [hdependencies]; exact h.fresh o) himage hresult
  exact { hset with }

theorem Inv.addBackupToDatabase (h : Inv s) {id : Nat} {isPartition : Bool}
    (hstep : s.addBackupToDatabase o isPartition id = some s') : Inv s' := by
  unfold ClientLoop.addBackupToDatabase at hstep
  dsimp only at hstep
  split at hstep
  next hphase =>
    cases hstep
    have hrunning : (s.objects o).isRunning = true := by
      unfold BackupObject.isRunning
      rw [hphase.1]
    have hset := @Inv.setRunning s o h hrunning { s.objects o with
        phase := if isPartition then .partition id else .image id
        backupId := if isPartition then (s.objects o).backupId else id } rfl rfl
      (.inr (.inl (by cases isPartition <;> rfl)))
    exact { hset with }
  next => cases hstep

theorem Inv.endPartition (h : Inv s) (hstep : s.endPartition o = some s') : Inv s' := by
  unfold ClientLoop.endPartition at hstep
  split at hstep
  next id hphase =>
    cases hstep
    have hrunning : (s.objects o).isRunning = true := by
      unfold BackupObject.isRunning
      rw [hphase]
    have hset := @Inv.setRunning s o h hrunning { s.objects o with phase := .started } rfl rfl
      (.inr (.inl rfl))
    exact { hset with }
  all_goals cases hstep

theorem Inv.not_formed (h : Inv s) (ho : o ∈ s.queue)
    (hout : ∀ group ∈ s.runningImageGroups, o ∉ group.members) : o ∉ s.formed.flatten := by
  intro hformed
  obtain ⟨group, hgroup, hmem⟩ := List.mem_flatten.mp hformed
  cases h.settled group hgroup with
  | inl hsettled => exact h.not_deleted ho (hsettled.deleted o hmem)
  | inr hpending =>
    obtain ⟨running, hrunning, hmembers⟩ := List.mem_map.mp hpending.running
    rw [← hmembers] at hmem
    exact hout running hrunning hmem

theorem Inv.readShadowData (h : Inv s) {dependencies : Nat}
    (hok : dependencies = 0 ∨ ∀ group ∈ s.runningImageGroups, o ∉ group.members)
    (hstep : s.readShadowData o dependencies = some s') : Inv s' := by
  unfold ClientLoop.readShadowData at hstep
  dsimp only at hstep
  split at hstep
  next hrunning =>
    have ho := h.running o hrunning.1
    rw [h.use ho] at hstep
    cases hstep
    have hfresh (hsome : dependencies ≠ 0) : o ∉ s.formed.flatten :=
      h.not_formed ho (hok.resolve_left hsome)
    have hset := @Inv.setObject s o h ho { s.objects o with dependencies := dependencies } hfresh
      rfl (.inr (.inl (getResult_of_isRunning hrunning.1)))
    exact { hset with }
  next => cases hstep

theorem Inv.endBackup (h : Inv s) {result shouldBackoff : Bool}
    (hok : looping s ∨ result = false ∨ ∀ group ∈ s.runningImageGroups,
      o ∈ group.members → ∃ m ∈ group.members, m ≠ o ∧ (s.objects m).getResult = false)
    (hstep : s.endBackup o result shouldBackoff = some s') : Inv s' := by
  unfold ClientLoop.endBackup at hstep
  dsimp only at hstep
  split at hstep
  next hphase =>
    cases hstep
    have hrunning : (s.objects o).isRunning = true := by
      unfold BackupObject.isRunning
      rw [hphase]
    have hset := @Inv.setRunning s o h hrunning
      { s.objects o with phase := .ended result shouldBackoff } rfl rfl hok
    exact { hset with }
  next id hphase =>
    cases hstep
    have hrunning : (s.objects o).isRunning = true := by
      unfold BackupObject.isRunning
      rw [hphase]
    have hset := @Inv.setRunning s o h hrunning
      { s.objects o with phase := .ended result shouldBackoff } rfl rfl hok
    exact { hset with }
  all_goals cases hstep

theorem Inv.takeDependencies (h : Inv s) {i : Nat} (hlooping : looping s) :
    Inv (s.takeDependencies i) := by
  unfold ClientLoop.takeDependencies
  split
  next => exact h.move hlooping ⟨(by simp), (by simp)⟩
  next o hi =>
    have ho := List.mem_of_getElem? hi
    dsimp only
    rw [h.use ho]
    split
    next => exact h.move hlooping ⟨(by simp), (by simp)⟩
    next =>
      split
      next => exact h.move hlooping ⟨(by simp), (by simp)⟩
      next hsome =>
        obtain ⟨himage, hdependencies⟩ := not_or.mp hsome
        have hlt := h.lt_created ho
        have hset := @Inv.setObject s o h ho { s.objects o with dependencies := 0 }
          (fun hne => absurd rfl hne) rfl (.inl hlooping)
        have hmade : Inv ((s.setObject o { s.objects o with dependencies := 0 }).addImageBackups
            (s.objects o).dependencies) := by
          apply hset.addObjects hlooping
          · exact fun x hx => if_neg fun hnew => Nat.not_lt.mpr hnew.1 hx
          · intro x _
            by_cases hnew : s.created ≤ x ∧ x < s.created + (s.objects o).dependencies
            · refine .inr ⟨?_, ?_⟩
              · exact congrArg BackupObject.isRunning (if_pos hnew)
              · exact congrArg BackupObject.dependencies (if_pos hnew)
            · exact .inl (if_neg hnew)
        have hreporter : ((s.setObject o { s.objects o with dependencies := 0 }).addImageBackups
            (s.objects o).dependencies).objects o = { s.objects o with dependencies := 0 } :=
          (if_neg fun hnew => Nat.not_lt.mpr hnew.1 hlt).trans (if_pos rfl)
        have hnew {x : Nat} (hx : x ∈ List.range' s.created (s.objects o).dependencies) :
            ((s.setObject o { s.objects o with dependencies := 0 }).addImageBackups
              (s.objects o).dependencies).objects x = .make false :=
          if_pos (List.mem_range'_1.mp hx)
        have hgroup := hmade.addGroup (List.cons_ne_nil o (List.range' s.created
          (s.objects o).dependencies)) ?_ ?_ ?_ hlooping
        · have hmoved := @Inv.move _ hgroup hlooping (.waitFor i) ⟨(by simp), (by simp)⟩
          exact { hmoved with }
        · refine List.nodup_cons.mpr ⟨?_, List.nodup_range'⟩
          intro hmem
          exact Nat.not_lt.mpr (List.mem_range'_1.mp hmem).1 hlt
        · intro x hx
          cases List.mem_cons.mp hx with
          | inl heq =>
            rw [heq]
            exact List.mem_append_left _ ho
          | inr hin => exact List.mem_append_right _ hin
        · intro x hx
          cases List.mem_cons.mp hx with
          | inl heq =>
            rw [heq, hreporter]
            exact ⟨h.fresh o hdependencies, rfl, Bool.eq_false_iff.mpr himage⟩
          | inr hin =>
            rw [hnew hin]
            refine ⟨fun hformed => ?_, rfl, rfl⟩
            exact Nat.not_lt.mpr (List.mem_range'_1.mp hin).1 (h.below x hformed)

theorem count_eraseIdx {l : List Nat} {i : Nat} (hi : l[i]? = some o) (x : Nat) :
    (l.eraseIdx i).count x + (if o = x then 1 else 0) = l.count x := by
  have herase := @Counting.countP_eraseIdx _ (· == x) _ _ _ hi
  unfold Counting.weight at herase
  simp only [beq_iff_eq] at herase
  exact herase

theorem mem_eraseIdx {l : List Nat} {i x : Nat} (hi : l[i]? = some o) (hx : x ∈ l) (hne : x ≠ o) :
    x ∈ l.eraseIdx i := by
  have hcount := count_eraseIdx hi x
  rw [if_neg (Ne.symm hne)] at hcount
  have hpos := List.count_pos_iff.mpr hx
  exact List.count_pos_iff.mp (by omega)

theorem Inv.delete (h : Inv s) {i : Nat} (hi : s.queue[i]? = some o)
    (hstopped : (s.objects o).isRunning = false)
    (hout : looping s → ∀ group ∈ s.runningImageGroups, o ∉ group.members)
    (hleft : s.pc ≠ .left) :
    Inv { s with queue := s.queue.eraseIdx i, ledger := s.ledger.delete o } := by
  have ho := List.mem_of_getElem? hi
  have hdelete : s.ledger.delete o = { s.ledger with deleted := s.ledger.deleted ++ [o] } := by
    unfold GroupLedger.delete
    rw [h.use ho]
  rw [hdelete]
  exact
    { h with
      owned := by
        intro x
        have howned := h.owned x
        have hcount := count_eraseIdx hi x
        have hgone : (s.ledger.deleted ++ [o]).count x =
            s.ledger.deleted.count x + if o = x then 1 else 0 := by
          rw [List.count_append, List.count_singleton]
          simp only [beq_iff_eq]
        change (s.queue.eraseIdx i).count x + (taken s).count x +
          (s.ledger.deleted ++ [o]).count x = if x < s.created then 1 else 0
        omega
      running := by
        intro x hx
        refine mem_eraseIdx hi (h.running x hx) ?_
        intro heq
        rw [heq] at hx
        exact absurd (hstopped.symm.trans hx) Bool.false_ne_true
      completed := fun x hx => List.mem_append_left _ (h.completed x hx)
      settled := by
        intro group hgroup
        refine (h.settled group hgroup).imp ?_ fun hpending => { hpending with }
        intro hsettled
        exact ⟨fun x hx => List.mem_append_left _ (hsettled.deleted x hx), hsettled.completed⟩
      waiting := by
        intro hlooping group hgroup m hm hfalse
        refine mem_eraseIdx hi (h.waiting hlooping group hgroup m hm hfalse) ?_
        intro heq
        exact hout hlooping group hgroup (heq ▸ List.mem_map_of_mem hm)
      left := fun hpc => absurd hpc hleft }

section Members

variable {before after : List ImageGroup} {group : ImageGroup} {i : Nat}

theorem Inv.formed_apart (h : Inv s) {group group' : List Nat} (hgroup : group ∈ s.formed)
    (hgroup' : group' ∈ s.formed) (hne : group ≠ group') : ∀ x ∈ group, x ∉ group' := by
  have hpairs := (List.nodup_flatten.mp h.disjoint).2
  have : Std.Symm (@List.Disjoint Nat) := ⟨fun _ _ hdisjoint _ hx hx' => hdisjoint hx' hx⟩
  exact fun x hx hx' => hpairs.forall hgroup hgroup' hne hx hx'

theorem Inv.group_apart (h : Inv s) (hsplit : s.runningImageGroups = before ++ group :: after) :
    group.members.Nodup ∧ ∀ other ∈ before ++ after, ∀ x ∈ group.members, x ∉ other.members := by
  have hnodup : (s.runningImageGroups.map ImageGroup.members).flatten.Nodup :=
    h.disjoint.sublist h.groups.flatten
  rw [hsplit, List.map_append, List.map_cons, List.flatten_append, List.flatten_cons] at hnodup
  obtain ⟨_, hrest, hbefore⟩ := List.nodup_append'.mp hnodup
  obtain ⟨hown, _, hafter⟩ := List.nodup_append'.mp hrest
  refine ⟨hown, ?_⟩
  intro other hother x hx hin
  cases List.mem_append.mp hother with
  | inl hmem =>
    exact hbefore (List.mem_flatten_of_mem (List.mem_map_of_mem hmem) hin)
      (List.mem_append_left _ hx)
  | inr hmem => exact hafter hx (List.mem_flatten_of_mem (List.mem_map_of_mem hmem) hin)

theorem mem_groups (hsplit : s.runningImageGroups = before ++ group :: after) :
    group ∈ s.runningImageGroups ∧ ∀ other ∈ before ++ after, other ∈ s.runningImageGroups := by
  rw [hsplit]
  refine ⟨List.mem_append_right _ List.mem_cons_self, ?_⟩
  intro other hother
  cases List.mem_append.mp hother with
  | inl hmem => exact List.mem_append_left _ hmem
  | inr hmem => exact List.mem_append_right _ (List.mem_cons_of_mem _ hmem)

theorem taken_split (hsplit : s.runningImageGroups = before ++ group :: after) :
    (taken s).Perm (group.taken ++ (before ++ after).flatMap ImageGroup.taken) := by
  unfold taken
  rw [hsplit, List.flatMap_append, List.flatMap_cons, List.flatMap_append]
  exact List.perm_append_comm_assoc _ _ _

theorem mem_members_of_taken {group : ImageGroup} {x : Nat} (h : x ∈ group.taken) :
    x ∈ group.members := group.taken_sublist.subset h

theorem Inv.mark (h : Inv s) (hlooping : looping s) (hi : s.queue[i]? = some o)
    (hstopped : (s.objects o).isRunning = false)
    (hsplit : s.runningImageGroups = before ++ group :: after) (hmem : o ∈ group.members)
    (hopen : ¬ (group.mark o).all Prod.snd = true) :
    Inv { s with
      queue := s.queue.eraseIdx i
      runningImageGroups := before ++ group.mark o :: after
      ledger := s.ledger.lockImageFromCleanup (s.objects o).backupId } := by
  have ho := List.mem_of_getElem? hi
  obtain ⟨hnodup, hapart⟩ := h.group_apart hsplit
  obtain ⟨hin, hothers⟩ := mem_groups hsplit
  have hout : o ∉ group.taken := fun htaken =>
    h.not_taken ho (List.mem_flatMap_of_mem hin htaken)
  have htaken : ((before ++ group.mark o :: after).flatMap ImageGroup.taken).Perm
      (o :: taken s) := by
    have hnew : ((before ++ group.mark o :: after).flatMap ImageGroup.taken).Perm
        ((group.mark o).taken ++ (before ++ after).flatMap ImageGroup.taken) := by
      rw [List.flatMap_append, List.flatMap_cons, List.flatMap_append]
      exact List.perm_append_comm_assoc _ _ _
    refine hnew.trans (((ImageGroup.taken_mark hnodup hmem hout).append_right _).trans ?_)
    exact ((taken_split hsplit).symm).cons o
  have hmembers : (before ++ group.mark o :: after).map ImageGroup.members =
      s.runningImageGroups.map ImageGroup.members := by
    rw [hsplit, List.map_append, List.map_append, List.map_cons, List.map_cons,
      ImageGroup.members_mark]
  have hcases {P : ImageGroup → Prop} (hnew : P (group.mark o))
      (hold : ∀ other ∈ before ++ after, P other) :
      ∀ g ∈ before ++ group.mark o :: after, P g := by
    intro g hg
    cases List.mem_append.mp hg with
    | inl hmem => exact hold g (List.mem_append_left _ hmem)
    | inr hmem =>
      cases List.mem_cons.mp hmem with
      | inl heq =>
        rw [heq]
        exact hnew
      | inr hmem => exact hold g (List.mem_append_right _ hmem)
  exact
    { h with
      owned := by
        intro x
        have howned := h.owned x
        have hcount := count_eraseIdx hi x
        have hgone := htaken.count_eq x
        rw [List.count_cons] at hgone
        simp only [beq_iff_eq] at hgone
        change (s.queue.eraseIdx i).count x + ((before ++ group.mark o :: after).flatMap
          ImageGroup.taken).count x + s.ledger.deleted.count x = if x < s.created then 1 else 0
        omega
      running := by
        intro x hx
        refine mem_eraseIdx hi (h.running x hx) ?_
        intro heq
        rw [heq] at hx
        exact absurd (hstopped.symm.trans hx) Bool.false_ne_true
      groups := by
        change List.Sublist (List.map _ (_ ++ _)) _
        rw [hmembers]
        exact h.groups
      images := by
        refine hcases ?_ fun other hother => h.images other (hothers other hother)
        rw [ImageGroup.members_mark]
        exact h.images group hin
      locks := by
        refine List.Perm.trans ?_ (htaken.map fun o => (s.objects o).backupId).symm
        refine List.perm_append_comm.trans ?_
        exact h.locks.cons _
      settled := by
        intro g hg
        refine (h.settled g hg).imp (fun hsettled => { hsettled with }) ?_
        intro hpending
        refine ⟨?_, hpending.completed⟩
        rw [hmembers]
        exact hpending.running
      opened := by
        intro _
        refine hcases ?_ fun other hother => h.opened hlooping other (hothers other hother)
        by_contra hnone
        apply hopen
        apply List.all_eq_true.mpr
        intro m hm
        by_contra hfalse
        exact hnone ⟨m, hm, Bool.eq_false_iff.mpr hfalse⟩
      waiting := by
        intro _
        refine hcases ?_ ?_
        · intro m hm hfalse
          obtain ⟨m', hm', rfl⟩ := List.mem_map.mp hm
          split at hfalse
          next => cases hfalse
          next hne =>
            rw [if_neg hne]
            exact mem_eraseIdx hi (h.waiting hlooping group hin m' hm' hfalse) hne
        · intro other hother m hm hfalse
          refine mem_eraseIdx hi (h.waiting hlooping other (hothers other hother) m hm hfalse) ?_
          intro heq
          exact hapart other hother o hmem (heq ▸ List.mem_map_of_mem hm)
      stopped := fun hstop => absurd hlooping hstop
      left := fun hleft => absurd hleft hlooping.2 }

/-- Every image of a list is unlocked. Induction on the list. -/
theorem perm_unlock (id : Nat → Nat) {ms locked rest : List Nat}
    (h : locked.Perm (ms.map id ++ rest)) :
    (ms.foldl (fun ids m => ids.erase (id m)) locked).Perm rest := by
  induction ms generalizing locked with
  | nil => exact h
  | cons m ms ih =>
    apply ih
    have herase := h.erase (id m)
    rw [List.map_cons, List.cons_append, List.erase_cons_head] at herase
    exact herase

theorem Inv.members_finish (h : Inv s) (ho : o ∈ s.queue) (hgroup : group ∈ s.runningImageGroups)
    (hnodup : group.members.Nodup) (hmem : o ∈ group.members)
    (hall : (group.mark o).all Prod.snd = true) :
    group.members.Perm (o :: group.taken) ∧ ∀ m ∈ group.members, m ∉ s.ledger.deleted := by
  have hout : o ∉ group.taken := fun htaken =>
    h.not_taken ho (List.mem_flatMap_of_mem hgroup htaken)
  have hmembers := ImageGroup.taken_mark hnodup hmem hout
  rw [ImageGroup.taken_of_all hall, ImageGroup.members_mark] at hmembers
  refine ⟨hmembers, ?_⟩
  intro m hm
  cases List.mem_cons.mp (hmembers.mem_iff.mp hm) with
  | inl heq => exact heq ▸ h.not_deleted ho
  | inr htaken => exact h.taken_not_deleted (List.mem_flatMap_of_mem hgroup htaken)

theorem Inv.finish (h : Inv s) (hlooping : looping s) (hi : s.queue[i]? = some o)
    (hstopped : (s.objects o).isRunning = false)
    (hsplit : s.runningImageGroups = before ++ group :: after) (hmem : o ∈ group.members)
    (hall : (group.mark o).all Prod.snd = true) :
    Inv { s with
      queue := s.queue.eraseIdx i
      runningImageGroups := before ++ after
      ledger := ImageGroup.finish s.objects
        (group.members.all fun m => (s.objects m).getResult)
        (s.ledger.lockImageFromCleanup (s.objects o).backupId) group.members } := by
  have ho := List.mem_of_getElem? hi
  obtain ⟨hnodup, hapart⟩ := h.group_apart hsplit
  obtain ⟨hin, hothers⟩ := mem_groups hsplit
  have hformed : group.members ∈ s.formed := h.groups.subset (List.mem_map_of_mem hin)
  obtain ⟨hmembers, hkept⟩ := h.members_finish ho hin hnodup hmem hall
  rw [@ImageGroup.finish_eq s.objects (s.ledger.lockImageFromCleanup (s.objects o).backupId) _ _
    hnodup hkept]
  have hrest : (o :: taken s).Perm
      (group.members ++ (before ++ after).flatMap ImageGroup.taken) :=
    ((taken_split hsplit).cons o).trans (hmembers.symm.append_right _)
  have hsub : (before ++ after).Sublist s.runningImageGroups := by
    rw [hsplit]
    exact (List.sublist_cons_self _ _).append_left before
  exact
    { h with
      owned := by
        intro x
        have howned := h.owned x
        have hcount := count_eraseIdx hi x
        have hgone := hrest.count_eq x
        rw [List.count_cons, List.count_append] at hgone
        simp only [beq_iff_eq] at hgone
        change (s.queue.eraseIdx i).count x + ((before ++ after).flatMap ImageGroup.taken).count x +
          (s.ledger.deleted ++ group.members).count x = if x < s.created then 1 else 0
        rw [List.count_append]
        omega
      running := by
        intro x hx
        refine mem_eraseIdx hi (h.running x hx) ?_
        intro heq
        rw [heq] at hx
        exact absurd (hstopped.symm.trans hx) Bool.false_ne_true
      groups := (hsub.map ImageGroup.members).trans h.groups
      images := fun other hother => h.images other (hothers other hother)
      locks := by
        apply perm_unlock fun m => (s.objects m).backupId
        have hlocks := h.locks.cons (s.objects o).backupId
        refine (List.perm_append_comm.trans hlocks).trans ?_
        have hmapped := hrest.map fun m => (s.objects m).backupId
        rw [List.map_append] at hmapped
        exact hmapped
      completed := by
        intro x hx
        cases List.mem_append.mp hx with
        | inl hold => exact List.mem_append_left _ (h.completed x hold)
        | inr hnew =>
          apply List.mem_append_right
          split at hnew
          next => exact hnew
          next => cases hnew
      settled := by
        intro g hg
        by_cases heq : g = group.members
        · refine .inl ⟨fun x hx => List.mem_append_right _ (heq ▸ hx), ?_⟩
          intro x hx
          have hpending : x ∉ s.ledger.completed := by
            intro hcompleted
            exact hkept x (heq ▸ hx) (h.completed x hcompleted)
          rw [heq] at hx ⊢
          refine List.mem_append.trans ((or_iff_right hpending).trans ?_)
          rw [← List.all_eq_true]
          split
          next hsuccess => exact iff_of_true hx hsuccess
          next hfailed => exact iff_of_false List.not_mem_nil hfailed
        · have hnot (x : Nat) (hx : x ∈ g) : x ∉ group.members :=
            h.formed_apart hg hformed heq x hx
          have hsame (x : Nat) (hx : x ∈ g) : x ∈ (s.ledger.completed ++
              if (group.members.all fun m => (s.objects m).getResult) = true
                then group.members else []) ↔ x ∈ s.ledger.completed := by
            refine List.mem_append.trans (or_iff_left ?_)
            intro hnew
            split at hnew
            next => exact hnot x hx hnew
            next => cases hnew
          refine (h.settled g hg).imp ?_ ?_
          · intro hsettled
            exact ⟨fun x hx => List.mem_append_left _ (hsettled.deleted x hx),
              fun x hx => (hsame x hx).trans (hsettled.completed x hx)⟩
          · intro hpending
            refine ⟨?_, fun x hx hcompleted => hpending.completed x hx ((hsame x hx).mp hcompleted)⟩
            obtain ⟨running, hrunning, hrunningMembers⟩ := List.mem_map.mp hpending.running
            refine List.mem_map.mpr ⟨running, ?_, hrunningMembers⟩
            rw [hsplit] at hrunning
            cases List.mem_append.mp hrunning with
            | inl hmem => exact List.mem_append_left _ hmem
            | inr hmem =>
              refine List.mem_append_right _ ((List.mem_cons.mp hmem).resolve_left ?_)
              intro hown
              rw [hown] at hrunningMembers
              exact heq hrunningMembers.symm
      opened := fun _ other hother => h.opened hlooping other (hothers other hother)
      waiting := by
        intro _ other hother m hm hfalse
        refine mem_eraseIdx hi (h.waiting hlooping other (hothers other hother) m hm hfalse) ?_
        intro heq
        exact hapart other hother o hmem (heq ▸ List.mem_map_of_mem hm)
      stopped := fun hstop => absurd hlooping hstop
      left := fun hleft => absurd hleft hlooping.2 }

end Members

theorem Inv.removeBackup (h : Inv s) (hlooping : looping s) {i : Nat}
    (hi : s.queue[i]? = some o) (hstopped : (s.objects o).isRunning = false) :
    Inv (s.removeBackup i o) := by
  have ho := List.mem_of_getElem? hi
  have hopen := h.opened hlooping
  have hkept (group : ImageGroup) (hgroup : group ∈ s.runningImageGroups) (x : Nat)
      (hx : x ∈ group.taken) : x ∉ s.ledger.deleted :=
    h.taken_not_deleted (List.mem_flatMap_of_mem hgroup hx)
  unfold ClientLoop.removeBackup
  dsimp only
  rw [h.use ho]
  by_cases hin : ∃ group ∈ s.runningImageGroups, o ∈ group.members
  · obtain ⟨group, hgroup, hmem⟩ := hin
    rw [if_neg (by rw [h.images group hgroup o hmem]; exact Bool.false_ne_true)]
    obtain ⟨before, after, hsplit⟩ := List.append_of_mem hgroup
    obtain ⟨hnodup, hapart⟩ := h.group_apart hsplit
    obtain ⟨_, hothers⟩ := mem_groups hsplit
    have hout : o ∉ group.taken := fun htaken =>
      h.not_taken ho (List.mem_flatMap_of_mem hgroup htaken)
    have hcheck := @ImageGroup.check_member s.objects o s.ledger group hmem hnodup hout
      (h.not_deleted ho) (hkept group hgroup)
    have hbefore (other : ImageGroup) (hother : other ∈ before) :=
      hkept other (hothers other (List.mem_append_left _ hother))
    have hafter (other : ImageGroup) (hother : other ∈ after) :=
      hkept other (hothers other (List.mem_append_right _ hother))
    have hmembers (other : ImageGroup) (hother : other ∈ before ++ after) : o ∉ other.members :=
      hapart other hother o hmem
    have hopened (other : ImageGroup) (hother : other ∈ before ++ after) :=
      hopen other (hothers other hother)
    rw [hsplit]
    by_cases hall : (group.mark o).all Prod.snd = true
    · rw [if_pos hall] at hcheck
      rw [ImageGroup.checkAll_split hmembers hopened hbefore ?_ hcheck]
      · exact { h.finish hlooping hi hstopped hsplit hmem hall with }
      · intro other hother x hx
        obtain ⟨_, hown⟩ := h.members_finish ho hgroup hnodup hmem hall
        rw [@ImageGroup.finish_eq s.objects (s.ledger.lockImageFromCleanup (s.objects o).backupId)
          _ _ hnodup hown]
        intro hdeleted
        cases List.mem_append.mp hdeleted with
        | inl hold => exact hafter other hother x hx hold
        | inr hnew =>
          exact hapart other (List.mem_append_right _ hother) x hnew (mem_members_of_taken hx)
    · rw [if_neg hall] at hcheck
      rw [ImageGroup.checkAll_split hmembers hopened hbefore ?_ hcheck]
      · exact { h.mark hlooping hi hstopped hsplit hmem hall with }
      · exact hafter
  · have hnone (group : ImageGroup) (hgroup : group ∈ s.runningImageGroups) :
        o ∉ group.members := fun hmem => hin ⟨group, hgroup, hmem⟩
    rw [ImageGroup.checkAll_skip hnone hopen hkept, ite_self]
    exact { h.delete hi hstopped (fun _ => hnone) hlooping.2 with }

theorem Inv.waitFor (h : Inv s) (hlooping : looping s) {i : Nat} : Inv (s.waitFor i) := by
  unfold ClientLoop.waitFor
  split
  next => exact h.move hlooping ⟨(by simp), (by simp)⟩
  next o hi =>
    split
    next hfinished =>
      have hremoved := h.removeBackup hlooping hi (BackupObject.not_isRunning_of_isFinished hfinished)
      unfold invokePostBackupScripts
      split
      next =>
        have hmoved := @Inv.move _ hremoved hlooping (.invoked i) ⟨(by simp), (by simp)⟩
        exact { hmoved with }
      next => exact hremoved.move hlooping ⟨(by simp), (by simp)⟩
    next =>
      rw [h.use (List.mem_of_getElem? hi)]
      exact h.move hlooping ⟨(by simp), (by simp)⟩

theorem Inv.leave (h : Inv s) (hpc : s.pc = .leaving) (hstep : s.leave = some s') : Inv s' := by
  have hout : ¬ looping s := fun hlooping => hlooping.1 hpc
  unfold ClientLoop.leave at hstep
  split at hstep
  next hqueue =>
    cases hstep
    exact
      { h with
        opened := fun hlooping => absurd rfl hlooping.2
        waiting := fun hlooping => absurd rfl hlooping.2
        stopped := fun _ => h.stopped hout
        left := fun _ => hqueue }
  next o queue hqueue =>
    split at hstep
    next => cases hstep
    next hstopped =>
      cases hstep
      have hi : s.queue[0]? = some o := by
        rw [hqueue]
        rfl
      have hdeleted := h.delete hi (Bool.eq_false_iff.mpr hstopped)
        (fun hlooping => absurd hlooping hout) (by rw [hpc]; nofun)
      rw [hqueue] at hdeleted
      exact hdeleted

theorem Inv.loop (h : Inv s) (hstep : s.loop = some s') : Inv s' := by
  unfold ClientLoop.loop at hstep
  split at hstep
  next hpc =>
    have hlooping : looping s := by rw [looping, hpc]; exact ⟨nofun, nofun⟩
    cases hstep
    exact h.move hlooping ⟨nofun, nofun⟩
  next i hpc =>
    have hlooping : looping s := by rw [looping, hpc]; exact ⟨nofun, nofun⟩
    cases hstep
    exact h.takeDependencies hlooping
  next i hpc =>
    have hlooping : looping s := by rw [looping, hpc]; exact ⟨nofun, nofun⟩
    cases hstep
    exact h.waitFor hlooping
  next i hpc =>
    have hlooping : looping s := by rw [looping, hpc]; exact ⟨nofun, nofun⟩
    cases hstep
    have hmoved := @Inv.move _ h hlooping (.dependencies i) ⟨nofun, nofun⟩
    exact { hmoved with }
  next hpc => exact h.leave hpc hstep
  next => cases hstep

theorem Inv.exit (h : Inv s) (hok : ∀ group ∈ s.runningImageGroups, group.taken = [] ∧
      ∃ m ∈ group.members, (s.objects m).getResult = false)
    (hstep : s.exit = some s') : Inv s' := by
  unfold ClientLoop.exit at hstep
  split at hstep
  next hpc =>
    cases hstep
    exact
      { h with
        opened := fun hlooping => absurd rfl hlooping.1
        waiting := fun hlooping => absurd rfl hlooping.1
        stopped := fun _ => hok
        left := nofun }
  next => cases hstep

theorem Inv.step {e : Event} (h : Inv s) (hok : GroupsOk s e) (hstep : step s e = some s') :
    Inv s' := by
  cases e with
  | queueBackup isFileBackup => exact h.queueBackup hstep
  | startBackup i => exact h.startBackup hstep
  | loop => exact h.loop hstep
  | exit => exact h.exit hok hstep
  | addBackupToDatabase o isPartition id => exact h.addBackupToDatabase hstep
  | endPartition o => exact h.endPartition hstep
  | readShadowData o dependencies => exact h.readShadowData hok hstep
  | endBackup o result shouldBackoff => exact h.endBackup hok hstep

end Steps

end ImageGroups

/-- In every run of the loop the groups complete together and leave nothing behind. -/
theorem groupsSettled_of_run {es : List Event} {s : ClientLoop}
    (hok : TransitionSystem.Guarded step GroupsOk initial es)
    (h : TransitionSystem.run step initial es = some s) : GroupsSettled s :=
  (TransitionSystem.guarded_run_invariant
    (fun _ _ _ hs hok hstep => ImageGroups.Inv.step hs hok hstep) ImageGroups.initial_inv hok
    h).groupsSettled

/-- An image backup names another volume, both are backed up, and the loop is left. -/
def completeGroup : List Event :=
  [.queueBackup false, .startBackup 0, .addBackupToDatabase 0 false 7, .readShadowData 0 1,
    .loop, .loop, .loop, .loop, .loop, .startBackup 1, .addBackupToDatabase 1 false 8,
    .endBackup 0 true true, .endBackup 1 true true, .loop, .loop, .loop, .loop, .loop, .loop, .loop,
    .exit, .loop]

theorem groupsSettled_of_run_completeGroup :
    ∃ s, TransitionSystem.run step initial completeGroup = some s ∧ s.pc = .left ∧
      s.ledger.completed = [0, 1] ∧ GroupsSettled s := by
  have hok : TransitionSystem.Guarded step GroupsOk initial completeGroup := by decide +kernel
  have hlast : (TransitionSystem.run step initial completeGroup).map
      (fun s => (s.pc, s.ledger.completed)) = some (.left, [0, 1]) := by decide +kernel
  obtain ⟨s, hrun, hs⟩ := Option.map_eq_some_iff.mp hlast
  obtain ⟨hpc, hcompleted⟩ := Prod.mk.inj hs
  exact ⟨s, hrun, hpc, hcompleted, groupsSettled_of_run hok hrun⟩

def exitInGroup : List Event :=
  [.queueBackup false, .startBackup 0, .addBackupToDatabase 0 false 7, .readShadowData 0 1,
    .loop, .loop, .loop, .loop, .loop, .endBackup 0 true true, .loop, .loop, .loop, .loop, .loop,
    .exit, .loop, .loop]

/-- The backup that has ended is not deleted, and its image stays locked. -/
theorem group_leaks_at_exit :
    ∃ s, TransitionSystem.run step initial exitInGroup = some s ∧ s.pc = .left ∧
      s.ledger.deleted = [1] ∧ s.ledger.lockedImages = [7] ∧ ¬ GroupsSettled s := by
  have hlast : (TransitionSystem.run step initial exitInGroup).map
      (fun s => (s.pc, s.ledger.deleted, s.ledger.lockedImages)) = some (.left, [1], [7]) := by
    decide +kernel
  obtain ⟨s, hrun, hs⟩ := Option.map_eq_some_iff.mp hlast
  obtain ⟨hpc, hledger⟩ := Prod.mk.inj hs
  obtain ⟨hdeleted, hlocked⟩ := Prod.mk.inj hledger
  refine ⟨s, hrun, hpc, hdeleted, hlocked, ?_⟩
  intro hsettled
  have hnone := (hsettled.left hpc).2.2
  rw [hlocked] at hnone
  cases hnone

end ClientLoop

end UrBackup
