import Mathlib.Data.List.Pairwise
import UrBackup.Download.Queue

/-! The order in the download queue: which items stand on the right side of each other, and that
insertion, postponement and looking ahead keep it so. -/
namespace UrBackup

namespace DlQueue

open SQueueItem

def isMarked (it : SQueueItem) : Bool := it.isFull && it.queued

def isUnmarked (it : SQueueItem) : Bool := it.isFull && !it.queued

section Order

variable (shareOf : List UInt8 → List UInt8 → List UInt8)

def shareOfItem (it : SQueueItem) : List UInt8 := shareOf it.currPath it.fn

/-- An item may stand in front of another: a file not in front of the start of its share, the stop
of a share not in front of its files, and nothing that is still to be requested in front of what
was requested. -/
structure Before (x y : SQueueItem) : Prop where
  start : x.action = .fileclient → y.action = .startShadowcopy → shareOfItem shareOf x ≠ y.fn
  stop : x.action = .stopShadowcopy → y.action = .fileclient → shareOfItem shareOf y ≠ x.fn
  marks : ¬ (isUnmarked x = true ∧ isMarked y = true)

/-- All items of the queue stand on the right side of each other. -/
def InOrder (queue : List SQueueItem) : Prop := queue.Pairwise (Before shareOf)

end Order

section Insertion

theorem not_marked_of_quitOrStop {it : SQueueItem} (h : it.isQuitOrStop = true) :
    isMarked it = false := by
  unfold isQuitOrStop at h
  unfold isMarked isFull
  cases haction : it.action <;> simp [haction] at h ⊢

theorem unmarked_not_marked {it : SQueueItem} (h : isUnmarked it = true) : isMarked it = false := by
  simp only [isUnmarked, Bool.and_eq_true, Bool.not_eq_true'] at h
  simp [isMarked, h]

theorem not_marked_behind {shareOf : List UInt8 → List UInt8 → List UInt8} {x : SQueueItem}
    {rest : List SQueueItem} (h : InOrder shareOf (x :: rest)) (hx : isUnmarked x = true) :
    ∀ y ∈ rest, isMarked y = false := by
  intro y hy
  rw [← Bool.not_eq_true]
  exact fun hmarked => ((List.pairwise_cons.mp h).1 y hy).marks ⟨hx, hmarked⟩

/-- Nothing behind the place that is found was requested. Induction on the rest of the queue; the
arguments say where it was passed. -/
theorem earliestPlace_marks {shareOf : List UInt8 → List UInt8 → List UInt8}
    (afterSwitched : Bool) {passed rest : List SQueueItem} {earliest : Option Nat}
    {noQueued : Bool} (h : InOrder shareOf rest)
    (hearliest : ∀ e, earliest = some e →
      e ≤ passed.length ∧ ∀ it ∈ passed.drop e, isMarked it = false)
    (hnone : noQueued = true → ∀ it ∈ passed, isMarked it = false) {place : Nat}
    (hplace : earliestPlace afterSwitched rest passed.length earliest noQueued = some place) :
    place ≤ (passed ++ rest).length ∧ ∀ it ∈ (passed ++ rest).drop place, isMarked it = false := by
  induction rest generalizing passed earliest noQueued with
  | nil =>
    unfold earliestPlace at hplace
    split at hplace
    next hqueued =>
      cases hplace
      rw [List.append_nil]
      exact ⟨Nat.zero_le _, hnone hqueued⟩
    next => cases hplace
  | cons it rest ih =>
    have hassoc : passed ++ it :: rest = (passed ++ [it]) ++ rest := by
      rw [List.append_assoc, List.singleton_append]
    have hlength : (passed ++ [it]).length = passed.length + 1 := by
      rw [List.length_append, List.length_singleton]
    have htail := (List.pairwise_cons.mp h).2
    -- the item joins what may be behind the place
    have hother : isMarked it = false →
        earliest.getD passed.length ≤ (passed ++ [it]).length ∧
          ∀ x ∈ (passed ++ [it]).drop (earliest.getD passed.length), isMarked x = false := by
      intro hit
      cases earliest with
      | none =>
        rw [Option.getD_none, List.drop_left, hlength]
        refine ⟨Nat.le_succ _, fun x hx => ?_⟩
        cases List.mem_singleton.mp hx
        exact hit
      | some e =>
        obtain ⟨hle, hdrop⟩ := hearliest e rfl
        rw [Option.getD_some, List.drop_append_of_le_length hle, hlength]
        refine ⟨Nat.le_succ_of_le hle, fun x hx => ?_⟩
        rcases List.mem_append.mp hx with hx | hx
        · exact hdrop x hx
        · cases List.mem_singleton.mp hx
          exact hit
    rw [hassoc]
    rw [earliestPlace, ← hlength] at hplace
    split at hplace
    next hfull =>
      split at hplace
      next hqueued =>
        have hunmarked : isUnmarked it = true := by
          unfold isUnmarked
          rw [hfull, hqueued]
          rfl
        have hit := unmarked_not_marked hunmarked
        split at hplace
        next =>
          cases hplace
          obtain ⟨hle, hdrop⟩ := hother hit
          rw [List.drop_append_of_le_length hle]
          refine ⟨hle.trans (by simp), fun x hx => ?_⟩
          rcases List.mem_append.mp hx with hx | hx
          · exact hdrop x hx
          · exact not_marked_behind h hunmarked x hx
        next =>
          refine ih htail ?_ ?_ hplace
          · rintro e ⟨⟩
            rw [List.drop_length]
            exact ⟨Nat.le_refl _, fun x hx => absurd hx List.not_mem_nil⟩
          · intro hnoQueued x hx
            rcases List.mem_append.mp hx with hx | hx
            · exact hnone hnoQueued x hx
            · cases List.mem_singleton.mp hx
              exact hit
      next =>
        refine ih htail ?_ ?_ hplace
        · intro e he
          cases he
        · intro hno
          cases hno
    next hfull =>
      have hit : isMarked it = false := by
        unfold isMarked
        rw [Bool.not_eq_true] at hfull
        rw [hfull]
        rfl
      refine ih htail ?_ ?_ hplace
      · rintro e ⟨⟩
        exact hother hit
      · intro hnoQueued x hx
        rcases List.mem_append.mp hx with hx | hx
        · exact hnone hnoQueued x hx
        · cases List.mem_singleton.mp hx
          exact hit

theorem insertAt_behind_first (front back : List SQueueItem) (ni : SQueueItem) :
    insertAt (front ++ back) (front.length + 1) ni =
      front ++ (back.take 1 ++ ni :: back.drop 1) := by
  rw [insertAt, List.take_append, List.drop_append, List.take_of_length_le (Nat.le_succ _),
    List.drop_of_length_le (Nat.le_succ _), Nat.add_sub_cancel_left, List.append_assoc,
    List.nil_append]

/-- What ends a shadow copy or the thread goes from the front of a queue behind the first item of
its back. Induction on the number of such items. -/
theorem postponeQuitStop_eq (front back : List SQueueItem) :
    ∃ postponed, postponed.Perm (front.filter (·.isQuitOrStop)) ∧
      postponeQuitStop front.length (front ++ back) =
        front.filter (fun it => !it.isQuitOrStop) ++
          (back.take 1 ++ (postponed ++ back.drop 1)) := by
  induction hlength : front.length generalizing front back with
  | zero =>
    obtain rfl := List.eq_nil_of_length_eq_zero hlength
    refine ⟨[], List.Perm.refl _, ?_⟩
    rw [List.filter_nil, List.nil_append, List.nil_append, List.nil_append,
      List.take_append_drop]
    rfl
  | succ n ih =>
    have htake : (front ++ back).take (n + 1) = front := by rw [← hlength, List.take_left]
    rw [postponeQuitStop, htake]
    cases hfind : front.findIdx? isQuitOrStop with
    | none =>
      rw [List.findIdx?_eq_none_iff] at hfind
      have hkeep : front.filter (fun it => !it.isQuitOrStop) = front :=
        List.filter_eq_self.mpr fun it hit => by rw [hfind it hit]; rfl
      have hnone : front.filter (·.isQuitOrStop) = [] :=
        List.filter_eq_nil_iff.mpr fun it hit => by simp [hfind it hit]
      refine ⟨[], by rw [hnone], ?_⟩
      rw [hkeep, List.nil_append, List.take_append_drop]
    | some i =>
      obtain ⟨hi, hstop, hfirst⟩ := List.findIdx?_eq_some_iff_getElem.mp hfind
      obtain ⟨before, it, after, rfl, rfl⟩ :
          ∃ before it after, front = before ++ it :: after ∧ before.length = i :=
        ⟨front.take i, front[i], front.drop (i + 1),
          by rw [List.getElem_cons_drop, List.take_append_drop],
          List.length_take_of_le hi.le⟩
      have hit : it.isQuitOrStop = true := by simpa using hstop
      have hdrop : (before ++ it :: after ++ back).drop before.length =
          it :: (after ++ back) := by
        rw [List.append_assoc, List.drop_left]
        rfl
      have htake' : (before ++ it :: after ++ back).take before.length = before := by
        rw [List.append_assoc, List.take_left]
      have hrest : (before ++ after).length = n := by
        simp only [List.length_append, List.length_cons] at hlength ⊢
        omega
      simp only [hdrop, htake']
      rw [← List.append_assoc before after back, ← hrest, insertAt_behind_first, hrest]
      obtain ⟨postponed, hperm, heq⟩ := ih (before ++ after) (back.take 1 ++ it :: back.drop 1) hrest
      have hkeep : (before ++ it :: after).filter (fun it => !it.isQuitOrStop) =
          (before ++ after).filter (fun it => !it.isQuitOrStop) := by
        simp [List.filter_append, hit]
      have hmoved : ((before ++ it :: after).filter (·.isQuitOrStop)).Perm
          (it :: (before ++ after).filter (·.isQuitOrStop)) := by
        rw [List.filter_append, List.filter_append, List.filter_cons_of_pos hit]
        exact List.perm_middle
      rw [heq, hkeep]
      cases back with
      | nil => exact ⟨it :: postponed, (hperm.cons it).trans hmoved.symm, by simp⟩
      | cons b back =>
        refine ⟨postponed ++ [it], ?_, by simp⟩
        exact (List.perm_append_singleton it postponed).trans
          ((hperm.cons it).trans hmoved.symm)

end Insertion

section Kept

variable {shareOf : List UInt8 → List UInt8 → List UInt8}

theorem before_quitOrStop (x : SQueueItem) {y : SQueueItem} (h : y.isQuitOrStop = true) :
    Before shareOf x y where
  start := by
    intro _ haction
    simp [isQuitOrStop, haction] at h
  stop := by
    intro _ haction
    simp [isQuitOrStop, haction] at h
  marks := by
    rw [not_marked_of_quitOrStop h]
    exact fun hmarks => Bool.false_ne_true hmarks.2

/-- What an item is for the order. -/
structure Alike (it it' : SQueueItem) : Prop where
  action : it'.action = it.action
  currPath : it'.currPath = it.currPath
  fn : it'.fn = it.fn

theorem Before.alike {x y x' y' : SQueueItem} (h : Before shareOf x y) (hx : Alike x x')
    (hy : Alike y y') (hmarks : ¬ (isUnmarked x' = true ∧ isMarked y' = true)) :
    Before shareOf x' y' where
  start := by
    rw [hx.action, hy.action, hy.fn, shareOfItem, hx.currPath, hx.fn]
    exact h.start
  stop := by
    rw [hx.action, hy.action, hx.fn, shareOfItem, hy.currPath, hy.fn]
    exact h.stop
  marks := hmarks

theorem InOrder.sublist {queue queue' : List SQueueItem} (h : InOrder shareOf queue)
    (hsub : queue'.Sublist queue) : InOrder shareOf queue' := List.Pairwise.sublist hsub h

theorem InOrder.snoc {queue : List SQueueItem} {it : SQueueItem} (h : InOrder shareOf queue)
    (hit : ∀ x ∈ queue, Before shareOf x it) : InOrder shareOf (queue ++ [it]) := by
  refine List.pairwise_append.mpr ⟨h, List.pairwise_singleton _ _, ?_⟩
  intro x hx y hy
  cases List.mem_singleton.mp hy
  exact hit x hx

theorem InOrder.replace {before rest : List SQueueItem} {it it' : SQueueItem}
    (h : InOrder shareOf (before ++ it :: rest)) (halike : Alike it it')
    (hbefore : isMarked it' = true → ∀ x ∈ before, isUnmarked x = false)
    (hrest : isUnmarked it' = true → ∀ y ∈ rest, isMarked y = false) :
    InOrder shareOf (before ++ it' :: rest) := by
  obtain ⟨hfirst, hlast, hacross⟩ := List.pairwise_append.mp h
  obtain ⟨hit, htail⟩ := List.pairwise_cons.mp hlast
  refine List.pairwise_append.mpr ⟨hfirst, List.pairwise_cons.mpr ⟨?_, htail⟩, ?_⟩
  · intro y hy
    refine (hit y hy).alike halike ⟨rfl, rfl, rfl⟩ ?_
    rintro ⟨hunmarked, hmarked⟩
    rw [hrest hunmarked y hy] at hmarked
    cases hmarked
  · intro x hx y hy
    rcases List.mem_cons.mp hy with rfl | hy
    · refine (hacross x hx it List.mem_cons_self).alike ⟨rfl, rfl, rfl⟩ halike ?_
      rintro ⟨hunmarked, hmarked⟩
      rw [hbefore hmarked x hx] at hunmarked
      cases hunmarked
    · exact hacross x hx y (List.mem_cons_of_mem it hy)

/-- A queue with an item put as early as it may stand, and with what has to wait for it behind
it. -/
structure Inserted (queue : List SQueueItem) (ni : SQueueItem) (queue' : List SQueueItem) : Prop where
  parts : ∃ front back postponed, queue = front ++ back ∧
    postponed.Perm (front.filter (·.isQuitOrStop)) ∧ (∀ it ∈ back, isMarked it = false) ∧
    queue' = front.filter (fun it => !it.isQuitOrStop) ++ ni :: (postponed ++ back)

theorem insert_parts {queue : List SQueueItem} {ni : SQueueItem} (h : InOrder shareOf queue)
    (hni : ni.isQuitOrStop = false) :
    Inserted queue ni (postponeQuitStop (insertFullQueueEarliest queue ni true).1
      (insertFullQueueEarliest queue ni true).2) := by
  constructor
  have hplace := @earliestPlace_marks shareOf true [] queue none true h
    (fun e he => by cases he) (fun _ it hit => absurd hit List.not_mem_nil)
  unfold insertFullQueueEarliest
  rw [List.length_nil] at hplace
  cases hfound : earliestPlace true queue 0 none true with
  | some place =>
    obtain ⟨hle, hback⟩ := hplace hfound
    rw [List.nil_append] at hle hback
    have hlength : (queue.take place).length = place := List.length_take_of_le hle
    obtain ⟨postponed, hperm, heq⟩ :=
      postponeQuitStop_eq (queue.take place) (ni :: queue.drop place)
    rw [hlength] at heq
    exact ⟨queue.take place, queue.drop place, postponed, (List.take_append_drop _ _).symm,
      hperm, hback, heq⟩
  | none =>
    obtain ⟨postponed, hperm, heq⟩ := postponeQuitStop_eq (queue ++ [ni]) []
    rw [List.length_append, List.append_nil] at heq
    refine ⟨queue, [], postponed, (List.append_nil queue).symm, ?_,
      fun it hit => absurd hit List.not_mem_nil, ?_⟩
    · rw [List.filter_append, List.filter_cons_of_neg (by simp [hni]), List.filter_nil,
        List.append_nil] at hperm
      exact hperm
    · refine heq.trans ?_
      simp [List.filter_append, hni]

variable {queue queue' : List SQueueItem} {ni : SQueueItem}

theorem Inserted.marked (h : Inserted queue ni queue') (hni : isMarked ni = false) :
    queue'.filter isMarked = queue.filter isMarked := by
  obtain ⟨front, back, postponed, rfl, hperm, -, rfl⟩ := h.parts
  have hpostponed : postponed.filter isMarked = [] := by
    rw [List.filter_eq_nil_iff]
    intro it hit
    have hstop := (List.mem_filter.mp (hperm.mem_iff.mp hit)).2
    rw [not_marked_of_quitOrStop hstop]
    exact Bool.false_ne_true
  have hfront : (front.filter fun it => !it.isQuitOrStop).filter isMarked =
      front.filter isMarked := by
    rw [List.filter_filter]
    congr 1
    funext it
    cases hstop : it.isQuitOrStop with
    | true => rw [not_marked_of_quitOrStop hstop]; rfl
    | false => exact Bool.and_true _
  rw [List.filter_append, List.filter_cons_of_neg (by simp [hni]), List.filter_append, hpostponed,
    hfront, List.nil_append, List.filter_append]

theorem Inserted.inOrder (h : Inserted queue ni queue') (horder : InOrder shareOf queue)
    (hni : isMarked ni = false) (haction : ni.action = .fileclient)
    (hstart : ∀ front back, queue = front ++ back → (∀ it ∈ back, isMarked it = false) →
      ∀ y ∈ back, y.action = .startShadowcopy → shareOfItem shareOf ni ≠ y.fn) :
    InOrder shareOf queue' := by
  obtain ⟨front, back, postponed, rfl, hperm, hback, rfl⟩ := h.parts
  obtain ⟨hfront, hlast, hacross⟩ := List.pairwise_append.mp horder
  have hpostponed : ∀ it ∈ postponed, it ∈ front ∧ it.isQuitOrStop = true := fun it hit =>
    List.mem_filter.mp (hperm.mem_iff.mp hit)
  have hbehind : InOrder shareOf (postponed ++ back) := by
    refine List.pairwise_append.mpr ⟨?_, hlast, ?_⟩
    · exact List.Pairwise.imp_of_mem (fun _ hy _ => before_quitOrStop _ (hpostponed _ hy).2)
        (List.pairwise_of_forall (fun _ _ => True.intro))
    · exact fun x hx y hy => hacross x (hpostponed x hx).1 y hy
  refine List.pairwise_append.mpr
    ⟨hfront.filter _, List.pairwise_cons.mpr ⟨?_, hbehind⟩, ?_⟩
  · intro y hy
    rcases List.mem_append.mp hy with hy | hy
    · exact before_quitOrStop ni (hpostponed y hy).2
    · refine ⟨fun _ => hstart front back rfl hback y hy, fun hstop => ?_, ?_⟩
      · rw [haction] at hstop
        cases hstop
      · rw [hback y hy]
        exact fun hmarks => Bool.false_ne_true hmarks.2
  · intro x hx y hy
    obtain ⟨hx, hkept⟩ := List.mem_filter.mp hx
    rcases List.mem_cons.mp hy with rfl | hy
    · refine ⟨fun _ hstart => ?_, fun hstop => ?_, ?_⟩
      · rw [haction] at hstart
        cases hstart
      · simp [isQuitOrStop, hstop] at hkept
      · rw [hni]
        exact fun hmarks => Bool.false_ne_true hmarks.2
    · rcases List.mem_append.mp hy with hy | hy
      · exact before_quitOrStop x (hpostponed y hy).2
      · exact hacross x hx y hy

end Kept

section Passes

variable {shareOf : List UInt8 → List UInt8 → List UInt8}

theorem chunked_not_marked {it : SQueueItem} (h : it.isChunked = true) :
    isMarked it = false ∧ isUnmarked it = false := by
  simp only [isChunked, Bool.and_eq_true, decide_eq_true_eq] at h
  simp [isMarked, isUnmarked, isFull, h]

theorem quitOrStop_of_fileclient {it : SQueueItem} (h : it.action = .fileclient) :
    it.isQuitOrStop = false := by
  simp [isQuitOrStop, h]

theorem action_of_chunked {it : SQueueItem} (h : it.isChunked = true) : it.action = .fileclient := by
  simp only [isChunked, Bool.and_eq_true, decide_eq_true_eq] at h
  exact h.1

/-- What a chunked item becomes does not change the marks. -/
theorem marked_middle {before rest : List SQueueItem} {it it' : SQueueItem}
    (hit : isMarked it = false) (hit' : isMarked it' = false) :
    (before ++ it' :: rest).filter isMarked = (before ++ it :: rest).filter isMarked := by
  rw [List.filter_append, List.filter_append, List.filter_cons_of_neg (by simp [hit']),
    List.filter_cons_of_neg (by simp [hit])]

/-- A patch download that becomes a whole one behind what was requested stays behind the start of
its share. -/
theorem switchToFull_inserted {before rest : List SQueueItem} {it it' : SQueueItem}
    (h : InOrder shareOf (before ++ it :: rest)) (hit : it.isChunked = true)
    (halike : Alike it it') (hqueued : it'.queued = false)
    (hbehind : ∃ z ∈ rest, isMarked z = true) :
    InOrder shareOf (switchToFull before it' rest) ∧
      (switchToFull before it' rest).filter isMarked = (before ++ it :: rest).filter isMarked := by
  have haction : it'.action = .fileclient := halike.action.trans (action_of_chunked hit)
  have hqueue : InOrder shareOf (before ++ rest) :=
    h.sublist ((List.sublist_cons_self it rest).append_left before)
  have hunmarked : isMarked { it' with fileclient := .full, switched := true } = false := by
    simp [isMarked, hqueued]
  have hinserted := @insert_parts shareOf _ { it' with fileclient := .full, switched := true } hqueue
    (quitOrStop_of_fileclient haction)
  refine ⟨hinserted.inOrder hqueue hunmarked haction ?_, ?_⟩
  · intro front back hparts hback y hy hstart
    obtain ⟨z, hz, hmarked⟩ := hbehind
    obtain ⟨-, hlast, -⟩ := List.pairwise_append.mp h
    have hyrest : y ∈ rest := by
      rcases List.append_eq_append_iff.mp hparts with ⟨middle, -, rfl⟩ | ⟨middle, -, rfl⟩
      · exact List.mem_append_right middle hy
      · have hunmarked := hback z (List.mem_append_right middle hz)
        rw [hmarked] at hunmarked
        cases hunmarked
    have hne := ((List.pairwise_cons.mp hlast).1 y hyrest).start (action_of_chunked hit) hstart
    rw [shareOfItem, ← halike.currPath, ← halike.fn] at hne
    exact hne
  · refine (hinserted.marked hunmarked).trans ?_
    rw [List.filter_append, List.filter_append, List.filter_cons_of_neg]
    simp [(chunked_not_marked hit).1]

theorem marked_of_hasFullQueuedAfter {it : SQueueItem} {rest : List SQueueItem}
    (hit : isMarked it = false) (h : hasFullQueuedAfter (it :: rest) = true) :
    ∃ z ∈ rest, isMarked z = true := by
  obtain ⟨z, hz, hmarked⟩ := List.any_eq_true.mp h
  rcases List.mem_cons.mp hz with rfl | hz
  · rw [isMarked] at hit
    rw [hmarked] at hit
    cases hit
  · exact ⟨z, hz, hmarked⟩

theorem not_marked_of_hasFullQueuedAfter {it : SQueueItem} {rest : List SQueueItem}
    (h : ¬ hasFullQueuedAfter (it :: rest) = true) : ∀ z ∈ rest, isMarked z = false := by
  intro z hz
  rw [← Bool.not_eq_true]
  exact fun hmarked => h (List.any_eq_true.mpr ⟨z, List.mem_cons_of_mem it hz, hmarked⟩)

def LookAhead.found? : LookAhead → List SQueueItem
  | .found it _ => [it]
  | .retry _ | .nothing _ => []

/-- A pass comes to an ordered queue, and what it finds is requested behind all else. Induction on
what is left of the queue. -/
theorem fullPass_inOrder (prepare : SQueueItem → PrepareOutcome) (maxPrepare : Nat)
    (before rest : List SQueueItem) (h : InOrder shareOf (before ++ rest))
    (hbefore : ∀ x ∈ before, isUnmarked x = false) :
    InOrder shareOf (fullPass prepare maxPrepare before rest).queue ∧
      (fullPass prepare maxPrepare before rest).queue.filter isMarked =
        (before ++ rest).filter isMarked ++ (fullPass prepare maxPrepare before rest).found? := by
  induction rest generalizing maxPrepare before with
  | nil =>
    unfold fullPass
    rw [List.append_nil] at h ⊢
    exact ⟨h, (List.append_nil _).symm⟩
  | cons it rest ih =>
    -- an item that is passed
    have hpass : ∀ maxPrepare it', Alike it it' → isUnmarked it' = false →
        (it' = it ∨ isMarked it = false ∧ isMarked it' = false) →
        InOrder shareOf (fullPass prepare maxPrepare (before ++ [it']) rest).queue ∧
        (fullPass prepare maxPrepare (before ++ [it']) rest).queue.filter isMarked =
          (before ++ it :: rest).filter isMarked ++
            (fullPass prepare maxPrepare (before ++ [it']) rest).found? := by
      intro maxPrepare it' halike hunmarked hsame
      have horder : InOrder shareOf (before ++ it' :: rest) :=
        h.replace halike (fun _ => hbefore) fun h => by rw [hunmarked] at h; cases h
      have hsplit : before ++ it' :: rest = (before ++ [it']) ++ rest := by
        rw [List.append_assoc, List.singleton_append]
      have hmiddle : (before ++ it' :: rest).filter isMarked =
          (before ++ it :: rest).filter isMarked := by
        rcases hsame with rfl | ⟨hit, hit'⟩
        · rfl
        · exact marked_middle hit hit'
      rw [← hmiddle, hsplit]
      apply ih maxPrepare (before ++ [it']) (hsplit ▸ horder)
      intro x hx
      rcases List.mem_append.mp hx with hx | hx
      · exact hbefore x hx
      · cases List.mem_singleton.mp hx
        exact hunmarked
    -- an item that is found
    have hfound : ∀ it', Alike it it' → isMarked it = false → isMarked it' = true →
        (∀ z ∈ rest, isMarked z = false) →
        InOrder shareOf (before ++ it' :: rest) ∧
        (before ++ it' :: rest).filter isMarked =
          (before ++ it :: rest).filter isMarked ++ [it'] := by
      intro it' halike hit hit' hrest
      refine ⟨h.replace halike (fun _ => hbefore) fun _ => hrest, ?_⟩
      have hnone : rest.filter isMarked = [] :=
        List.filter_eq_nil_iff.mpr fun z hz => by simp [hrest z hz]
      rw [List.filter_append, List.filter_append, List.filter_cons_of_pos hit',
        List.filter_cons_of_neg (by simp [hit]), hnone, List.append_nil]
    unfold fullPass
    split
    next hchunked =>
      simp only [Bool.and_eq_true, Bool.not_eq_true'] at hchunked
      obtain ⟨⟨hit, hqueued⟩, -⟩ := hchunked
      obtain ⟨hmarked, hunmarked⟩ := chunked_not_marked hit
      split
      · exact hpass _ it ⟨rfl, rfl, rfl⟩ hunmarked (.inl rfl)
      · dsimp only
        split
        · split
          next hafter =>
            rw [LookAhead.found?, List.append_nil]
            exact switchToFull_inserted h hit ⟨rfl, rfl, rfl⟩ hqueued
              (marked_of_hasFullQueuedAfter (chunked_not_marked hit).1 hafter)
          next hafter =>
            refine hfound _ ⟨rfl, rfl, rfl⟩ hmarked ?_ (not_marked_of_hasFullQueuedAfter hafter)
            simp [isMarked, isFull, action_of_chunked hit]
        · exact hpass _ _ ⟨rfl, rfl, rfl⟩ hunmarked (.inr ⟨hmarked, hmarked⟩)
    next =>
      split
      next hfull =>
        have hit := unmarked_not_marked hfull
        obtain ⟨-, hlast, -⟩ := List.pairwise_append.mp h
        refine hfound _ ⟨rfl, rfl, rfl⟩ hit ?_ (not_marked_behind hlast hfull)
        simp only [Bool.and_eq_true] at hfull
        simpa [isMarked, isFull] using hfull.1
      next hfull =>
        exact hpass _ it ⟨rfl, rfl, rfl⟩ (by simpa [isUnmarked] using hfull) (.inl rfl)

theorem getQueuedFileFull_inOrder (prepare : SQueueItem → PrepareOutcome) {queue : List SQueueItem}
    (h : InOrder shareOf queue) :
    InOrder shareOf (getQueuedFileFull prepare queue).2 ∧
      (getQueuedFileFull prepare queue).2.filter isMarked =
        queue.filter isMarked ++ (getQueuedFileFull prepare queue).1.toList := by
  have hfirst := fullPass_inOrder prepare 1 [] queue h (fun _ hx => absurd hx List.not_mem_nil)
  unfold getQueuedFileFull
  cases hpass : fullPass prepare 1 [] queue with
  | found it queue' =>
    rw [hpass] at hfirst
    exact hfirst
  | nothing queue' =>
    rw [hpass] at hfirst
    exact hfirst
  | retry queue' =>
    rw [hpass] at hfirst
    have hmarks : queue'.filter isMarked = queue.filter isMarked :=
      hfirst.2.trans (List.append_nil _)
    have hsecond := fullPass_inOrder prepare 0 [] queue' hfirst.1
      (fun _ hx => absurd hx List.not_mem_nil)
    rw [List.nil_append, hmarks] at hsecond
    dsimp only
    cases hpass' : fullPass prepare 0 [] queue' with
    | found it queue'' =>
      rw [hpass'] at hsecond
      exact hsecond
    | nothing queue'' =>
      rw [hpass'] at hsecond
      exact hsecond
    | retry queue'' =>
      rw [hpass'] at hsecond
      exact hsecond

/-- The other pass requests no full item. Induction on what is left of the queue. -/
theorem chunkedPass_inOrder (prepare : SQueueItem → PrepareOutcome) (before rest : List SQueueItem)
    (h : InOrder shareOf (before ++ rest)) :
    InOrder shareOf (chunkedPass prepare before rest).queue ∧
      (chunkedPass prepare before rest).queue.filter isMarked =
        (before ++ rest).filter isMarked := by
  induction rest generalizing before with
  | nil =>
    unfold chunkedPass
    rw [List.append_nil] at h ⊢
    exact ⟨h, rfl⟩
  | cons it rest ih =>
    have hpass (queue : List SQueueItem) (it' : SQueueItem)
        (horder : InOrder shareOf (before ++ it' :: rest))
        (hmarks : (before ++ it' :: rest).filter isMarked = queue.filter isMarked) :
        InOrder shareOf (chunkedPass prepare (before ++ [it']) rest).queue ∧
        (chunkedPass prepare (before ++ [it']) rest).queue.filter isMarked =
          queue.filter isMarked := by
      have hsplit : before ++ it' :: rest = (before ++ [it']) ++ rest := by
        rw [List.append_assoc, List.singleton_append]
      rw [← hmarks, hsplit]
      exact ih (before ++ [it']) (hsplit ▸ horder)
    unfold chunkedPass
    split
    next hchunked =>
      simp only [Bool.and_eq_true, Bool.not_eq_true'] at hchunked
      obtain ⟨⟨hit, hqueued⟩, -⟩ := hchunked
      obtain ⟨hmarked, hunmarked⟩ := chunked_not_marked hit
      -- a chunked item that something is noted in
      have hnoted (it' : SQueueItem) (halike : Alike it it') (hit' : it'.isChunked = true) :
          InOrder shareOf (before ++ it' :: rest) ∧
          (before ++ it' :: rest).filter isMarked = (before ++ it :: rest).filter isMarked := by
        obtain ⟨hmarked', hunmarked'⟩ := chunked_not_marked hit'
        exact ⟨h.replace halike (by simp [hmarked']) (by simp [hunmarked']),
          marked_middle hmarked hmarked'⟩
      split
      · exact hnoted _ ⟨rfl, rfl, rfl⟩ hit
      · dsimp only
        split
        · split
          next hafter =>
            exact switchToFull_inserted h hit ⟨rfl, rfl, rfl⟩ hqueued
              (marked_of_hasFullQueuedAfter (chunked_not_marked hit).1 hafter)
          next hafter =>
            have hswitched : isMarked { it with
                patchDlFiles := (preparePatchDownloadFiles (prepare it)).1
                fileclient := .full
                switched := true } = false := by
              simp [isMarked, hqueued]
            refine hpass _ _ (h.replace ⟨rfl, rfl, rfl⟩ (by simp [hswitched]) fun _ => ?_)
              (marked_middle hmarked hswitched)
            exact not_marked_of_hasFullQueuedAfter hafter
        · split
          · exact hnoted _ ⟨rfl, rfl, rfl⟩ hit
          · obtain ⟨horder, hmarks⟩ := hnoted { it with
                patchDlFiles := (preparePatchDownloadFiles (prepare it)).1 } ⟨rfl, rfl, rfl⟩ hit
            exact hpass _ _ horder hmarks
    next => exact hpass _ it h rfl

theorem getQueuedFileChunked_inOrder (prepare : SQueueItem → PrepareOutcome) (passes : Nat)
    {queue : List SQueueItem} (h : InOrder shareOf queue) :
    InOrder shareOf (getQueuedFileChunked prepare passes queue) ∧
      (getQueuedFileChunked prepare passes queue).filter isMarked = queue.filter isMarked := by
  induction passes generalizing queue with
  | zero => exact ⟨h, rfl⟩
  | succ passes ih =>
    have hpass := chunkedPass_inOrder prepare [] queue h
    unfold getQueuedFileChunked
    cases hresult : chunkedPass prepare [] queue with
    | found it queue' =>
      rw [hresult] at hpass
      exact hpass
    | nothing queue' =>
      rw [hresult] at hpass
      exact hpass
    | retry queue' =>
      rw [hresult] at hpass
      obtain ⟨horder, hmarks⟩ := ih hpass.1
      exact ⟨horder, hmarks.trans hpass.2⟩

theorem resetQueueFull_inOrder {queue : List SQueueItem} (h : InOrder shareOf queue) :
    InOrder shareOf (resetQueueFull queue) ∧ (resetQueueFull queue).filter isMarked = [] := by
  have hnone (it : SQueueItem) :
      isMarked (if it.isFull then { it with queued := false } else it) = false := by
    split
    · simp [isMarked]
    next hfull => simp [isMarked, hfull]
  have halike (it : SQueueItem) :
      Alike it (if it.isFull then { it with queued := false } else it) := by
    split <;> exact ⟨rfl, rfl, rfl⟩
  constructor
  · refine List.Pairwise.map _ (fun x y hxy => hxy.alike (halike x) (halike y) ?_) h
    rw [hnone y]
    simp
  · refine List.filter_eq_nil_iff.mpr fun it hit => ?_
    obtain ⟨it', -, rfl⟩ := List.mem_map.mp hit
    simp [hnone it']

theorem resetQueueChunked_inOrder {queue : List SQueueItem} (h : InOrder shareOf queue) :
    InOrder shareOf (resetQueueChunked queue) ∧
      (resetQueueChunked queue).filter isMarked = queue.filter isMarked := by
  have hsame (it : SQueueItem) : ∃ it', (if it.isChunked then { it with queued := false } else it) =
      it' ∧ Alike it it' ∧ isUnmarked it' = isUnmarked it ∧ isMarked it' = isMarked it ∧
        (isMarked it = true → it' = it) := by
    refine ⟨_, rfl, ?_⟩
    split
    next hchunked =>
      have hchunked' : { it with queued := false }.isChunked = true := hchunked
      obtain ⟨hmarked, hunmarked⟩ := chunked_not_marked hchunked
      obtain ⟨hmarked', hunmarked'⟩ := chunked_not_marked hchunked'
      exact ⟨⟨rfl, rfl, rfl⟩, hunmarked'.trans hunmarked.symm, hmarked'.trans hmarked.symm,
        by simp [hmarked]⟩
    next => exact ⟨⟨rfl, rfl, rfl⟩, rfl, rfl, fun _ => rfl⟩
  constructor
  · refine List.Pairwise.map _ (fun x y hxy => ?_) h
    obtain ⟨x', rfl, hx, hunmarked, -, -⟩ := hsame x
    obtain ⟨y', rfl, hy, -, hmarked, -⟩ := hsame y
    apply hxy.alike hx hy
    rw [hunmarked, hmarked]
    exact hxy.marks
  · unfold resetQueueChunked
    induction queue with
    | nil => rfl
    | cons it rest ih =>
      obtain ⟨it', heq, -, -, hmarked, hkept⟩ := hsame it
      rw [List.map_cons, heq, List.filter_cons, List.filter_cons, hmarked,
        ih (List.pairwise_cons.mp h).2]
      split
      next hit => rw [hkept hit]
      next => rfl

theorem unqueue_cases (cond : SQueueItem → Bool) (queue : List SQueueItem) :
    unqueue cond queue = queue ∧ (∀ it ∈ queue, (it.queued && cond it) = false) ∨
      ∃ front it rest, queue = front ++ it :: rest ∧ it.queued = true ∧ cond it = true ∧
        unqueue cond queue = front ++ { it with queued := false } :: rest := by
  induction queue with
  | nil => exact .inl ⟨rfl, fun _ hit => absurd hit List.not_mem_nil⟩
  | cons it rest ih =>
    unfold unqueue
    cases hit : it.queued && cond it with
    | true =>
      obtain ⟨hqueued, hcond⟩ := Bool.and_eq_true_iff.mp hit
      exact .inr ⟨[], it, rest, rfl, hqueued, hcond, rfl⟩
    | false =>
      rcases ih with ⟨hsame, hnone⟩ | ⟨front, found, back, rfl, hqueued, hcond, heq⟩
      · refine .inl ⟨by simp [hsame], fun x hx => ?_⟩
        rcases List.mem_cons.mp hx with rfl | hx
        · exact hit
        · exact hnone x hx
      · exact .inr ⟨it :: front, found, back, rfl, hqueued, hcond, by simp [heq]⟩

def undoLatest (cond : SQueueItem → Bool) (asked : List SQueueItem) : List SQueueItem :=
  if asked.getLast?.any cond then asked.dropLast else asked

theorem unqueueFull_inOrder {cond : SQueueItem → Bool} {queue : List SQueueItem}
    (h : InOrder shareOf queue) (hfull : ∀ it, cond it = true → it.isFull = true)
    (hlatest : ∀ it ∈ (queue.filter isMarked).dropLast, cond it = false) :
    InOrder shareOf (unqueue cond queue) ∧
      (unqueue cond queue).filter isMarked = undoLatest cond (queue.filter isMarked) := by
  unfold undoLatest
  rcases unqueue_cases cond queue with ⟨hsame, hnone⟩ | ⟨front, it, rest, rfl, hqueued, hcond, heq⟩
  · rw [hsame, if_neg]
    · exact ⟨h, rfl⟩
    · intro hlast
      obtain ⟨it, hit, hcond⟩ := Option.any_eq_true _ _ |>.mp hlast
      obtain ⟨hmem, hmarked⟩ := List.mem_filter.mp (List.mem_of_getLast? hit)
      have hfalse := hnone it hmem
      rw [hcond, Bool.and_true] at hfalse
      simp [isMarked, hfalse] at hmarked
  · have hmarked : isMarked it = true := by
      rw [isMarked, hfull it hcond, hqueued]
      rfl
    have hunmarked : isMarked { it with queued := false } = false := by simp [isMarked]
    have hfilter : (front ++ it :: rest).filter isMarked =
        front.filter isMarked ++ it :: rest.filter isMarked := by
      rw [List.filter_append, List.filter_cons_of_pos hmarked]
    -- with a later request, this would not be the latest
    have hrest : rest.filter isMarked = [] := by
      by_contra hne
      refine absurd (hlatest it ?_) (by simp [hcond])
      rw [hfilter, List.dropLast_append_of_ne_nil (List.cons_ne_nil _ _),
        List.dropLast_cons_of_ne_nil hne]
      exact List.mem_append_right _ List.mem_cons_self
    have hbehind (y : SQueueItem) (hy : y ∈ rest) : isMarked y = false :=
      Bool.eq_false_iff.mpr (List.filter_eq_nil_iff.mp hrest y hy)
    rw [heq, hfilter, hrest, List.getLast?_concat, List.dropLast_concat, Option.any_some, if_pos hcond,
      List.filter_append, List.filter_cons_of_neg (by simp [hunmarked]), hrest, List.append_nil]
    exact ⟨h.replace ⟨rfl, rfl, rfl⟩ (by simp [hunmarked]) fun _ => hbehind, rfl⟩

theorem unqueueChunked_inOrder {cond : SQueueItem → Bool} {queue : List SQueueItem}
    (h : InOrder shareOf queue) (hchunked : ∀ it, cond it = true → it.isChunked = true) :
    InOrder shareOf (unqueue cond queue) ∧
      (unqueue cond queue).filter isMarked = queue.filter isMarked := by
  rcases unqueue_cases cond queue with ⟨hsame, -⟩ | ⟨front, it, rest, rfl, -, hcond, heq⟩
  · rw [hsame]
    exact ⟨h, rfl⟩
  · have hit := hchunked it hcond
    have hit' : { it with queued := false }.isChunked = true := hit
    obtain ⟨hmarked, -⟩ := chunked_not_marked hit
    obtain ⟨hmarked', hunmarked'⟩ := chunked_not_marked hit'
    rw [heq]
    exact ⟨h.replace ⟨rfl, rfl, rfl⟩ (by simp [hmarked']) (by simp [hunmarked']),
      marked_middle hmarked hmarked'⟩

end Passes

end DlQueue

end UrBackup
