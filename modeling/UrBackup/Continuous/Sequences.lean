import UrBackup.Continuous.CompactChanges
import Mathlib.Data.List.Count
import Mathlib.Data.List.Nodup

/-! Which positions of the change journals the messages cover whose changes were taken over. -/
namespace UrBackup

open ByteOrder

def encodeInt64 (x : Int) : Bytes := littleEndian 8 (x % 2 ^ 64).toNat

/-- The positions of a journal that a message covers. -/
structure SequenceRange where
  id : Int
  start : Int
  stop : Int
  le : start ≤ stop
  id_bounds : -2 ^ 63 ≤ id ∧ id < 2 ^ 63
  start_bounds : -2 ^ 63 ≤ start ∧ start < 2 ^ 63
  stop_bounds : -2 ^ 63 ≤ stop ∧ stop < 2 ^ 63

def SequenceRange.encode (r : SequenceRange) : Bytes :=
  encodeInt64 r.id ++ (encodeInt64 r.start ++ encodeInt64 r.stop)

/-- A message of a client; what is behind the header can be anything. -/
structure ChangeMessage where
  ranges : List SequenceRange
  body : Bytes
  nodup : (ranges.map (·.id)).Nodup
  short : ranges.length < 2 ^ 32

namespace ChangeMessage

def encode (m : ChangeMessage) : Bytes :=
  changeHeader :: (littleEndian 4 m.ranges.length ++ (m.ranges.flatMap (·.encode) ++ m.body))

def Covers (m : ChangeMessage) (id p : Int) : Prop :=
  ∃ r ∈ m.ranges, r.id = id ∧ r.start ≤ p ∧ p < r.stop

instance (m : ChangeMessage) (id p : Int) : Decidable (m.Covers id p) :=
  inferInstanceAs (Decidable (∃ r ∈ m.ranges, r.id = id ∧ r.start ≤ p ∧ p < r.stop))

end ChangeMessage

def nextOf (sequences : List SSequence) (id : Int) : Option Int :=
  (sequences.find? fun s => decide (s.id = id)).map (·.next)

def stopOf (ranges : List SequenceRange) (id n : Int) : Int :=
  ((ranges.find? fun r => decide (r.id = id)).map (·.stop)).getD n

section Definitions

variable (initial sequences : List SSequence)

/-- Ranges that begin where their journals are. -/
def Continues (ranges : List SequenceRange) : Prop :=
  ∀ r ∈ ranges, ∀ n, nextOf sequences r.id = some n → r.start = n

/-- The journals have been moved by some ranges. -/
structure Moved (ranges : List SequenceRange) (sequences' : List SSequence) : Prop where
  ids : sequences'.map (·.id) = sequences.map (·.id)
  next : ∀ id, nextOf sequences' id = (nextOf sequences id).map (stopOf ranges id)

/-- What one range does to the sequences. -/
inductive RangeChecked (firstCompaction : Bool) (r : SequenceRange) :
    SequenceCheck × List SSequence → Prop where
  | fits {sequences'} (h : Continues sequences [r]) (hmoved : Moved sequences [r] sequences') :
      RangeChecked firstCompaction r (.fits, sequences')
  | skip {n sequences'} (hfirst : firstCompaction = true) (hnext : nextOf sequences r.id = some n)
      (hlt : r.start < n) (hmoved : Moved sequences [r] sequences') :
      RangeChecked firstCompaction r (.skip, sequences')
  | gap {n} (hnext : nextOf sequences r.id = some n)
      (hlt : firstCompaction = true → n < r.start) :
      RangeChecked firstCompaction r (.gap, sequences)

/-- How a header can be accepted. -/
inductive Accepted (firstCompaction : Bool) (ranges : List SequenceRange) :
    Bool → List SSequence → Prop where
  | fits {sequences'} (h : Continues sequences ranges) (hmoved : Moved sequences ranges sequences') :
      Accepted firstCompaction ranges false sequences'
  | skip {before r after n sequences'} (hfirst : firstCompaction = true)
      (hranges : ranges = before ++ r :: after) (h : Continues sequences before)
      (hnext : nextOf sequences r.id = some n) (hlt : r.start < n)
      (hmoved : Moved sequences (before ++ [r]) sequences') :
      Accepted firstCompaction ranges true sequences'
  | gap {before r after n sequences'} (hfirst : firstCompaction = true)
      (hranges : ranges = before ++ r :: after) (h : Continues sequences before)
      (hnext : nextOf sequences r.id = some n) (hlt : n < r.start)
      (hmoved : Moved sequences before sequences') :
      Accepted firstCompaction ranges false sequences'

/-- A range without positions from the initial one of its journal on. -/
def Old (r : SequenceRange) : Prop :=
  ∀ i, nextOf initial r.id = some i → max r.stop i = max r.start i

/-- What a message of the first run has to be like, if a range of it does not begin where its
journal is. If that begins before, the message is skipped; if it begins behind, the ranges after
it are not looked at. -/
def ChangeMessage.Harmless (m : ChangeMessage) : Prop :=
  ∀ before r after n i, m.ranges = before ++ r :: after → Continues sequences before →
    nextOf sequences r.id = some n → nextOf initial r.id = some i →
      (r.start < n → max r.stop i = max n i ∧ ∀ q ∈ before, Old initial q) ∧
        (n < r.start → ∀ q ∈ r :: after, Old initial q)

/-- Every position behind the initial one is covered once up to the position of its journal, and
not at all from there on. -/
structure Counted (taken : List ChangeMessage) : Prop where
  ids : sequences.map (·.id) = initial.map (·.id)
  count : ∀ id i n, nextOf initial id = some i → nextOf sequences id = some n → ∀ p, i ≤ p →
    taken.countP (fun m => decide (m.Covers id p)) = if p < n then 1 else 0

end Definitions

namespace BackupServerContinuous

def start (initial : List SSequence) : BackupServerContinuous := ⟨[], initial, [], true⟩

def takesOver (s : BackupServerContinuous) (message : Bytes) : Bool :=
  (s.header message).ok && !(s.header message).skip

/-- A run of `compactChanges` over some messages. -/
def run (s : BackupServerContinuous) (messages : List ChangeMessage) :
    Bool × BackupServerContinuous :=
  { s with changes := messages.map ChangeMessage.encode }.compactChanges

def runs (s : BackupServerContinuous) : List (List ChangeMessage) → BackupServerContinuous
  | [] => s
  | messages :: rest => (s.run messages).2.runs rest

def AllTrue (s : BackupServerContinuous) : List (List ChangeMessage) → Prop
  | [] => True
  | messages :: rest => (s.run messages).1 = true ∧ (s.run messages).2.AllTrue rest

def messageSteps (s : BackupServerContinuous) :
    List ChangeMessage → List (BackupServerContinuous × ChangeMessage)
  | [] => []
  | m :: messages => (s, m) :: (s.compactMessage m.encode).2.messageSteps messages

def steps (s : BackupServerContinuous) :
    List (List ChangeMessage) → List (BackupServerContinuous × ChangeMessage)
  | [] => []
  | messages :: rest =>
    { s with changes := messages.map ChangeMessage.encode }.messageSteps messages ++
      (s.run messages).2.steps rest

def taken (steps : List (BackupServerContinuous × ChangeMessage)) : List ChangeMessage :=
  (steps.filter fun step => step.1.takesOver step.2.encode).map (·.2)

end BackupServerContinuous

section Reading

variable {x : Int} {k : Nat} {rest : Bytes}

theorem encodeInt64_length (x : Int) : (encodeInt64 x).length = 8 := littleEndian_length 8 _

theorem int64_encodeInt64 (h : -2 ^ 63 ≤ x ∧ x < 2 ^ 63) : int64 (encodeInt64 x) = x := by
  have hdecode : ofLittleEndian (encodeInt64 x) = (x % 2 ^ 64).toNat :=
    ofLittleEndian_littleEndian (by omega)
  unfold int64
  rw [hdecode]
  split <;> omega

theorem getInt64_take (h : -2 ^ 63 ≤ x ∧ x < 2 ^ 63) (hk : 8 ≤ k) :
    CRData.getInt64 ((encodeInt64 x ++ rest).take k) = (some x, rest.take (k - 8)) := by
  have hlength := encodeInt64_length x
  obtain ⟨j, rfl⟩ := Nat.exists_eq_add_of_le hk
  have htake : (encodeInt64 x ++ rest).take (8 + j) = encodeInt64 x ++ rest.take j := by
    rw [← hlength]
    exact List.take_length_add_append _
  rw [htake, CRData.getInt64, if_neg, List.take_left' hlength, List.drop_left' hlength,
    int64_encodeInt64 h, Nat.add_sub_cancel_left]
  rw [List.length_append, hlength]
  omega

theorem getUInt_take {n : Nat} (h : n < 2 ^ 32) (hk : 4 ≤ k) :
    CRData.getUInt ((littleEndian 4 n ++ rest).take k) = (some n, rest.take (k - 4)) := by
  have hlength := littleEndian_length 4 n
  obtain ⟨j, rfl⟩ := Nat.exists_eq_add_of_le hk
  have htake : (littleEndian 4 n ++ rest).take (4 + j) = littleEndian 4 n ++ rest.take j := by
    rw [← hlength]
    exact List.take_length_add_append _
  have hdecode : ofLittleEndian (littleEndian 4 n) = n := ofLittleEndian_littleEndian h
  rw [htake, CRData.getUInt, if_neg, List.take_left' hlength, List.drop_left' hlength, hdecode,
    Nat.add_sub_cancel_left]
  rw [List.length_append, hlength]
  omega

theorem getInt64_short {data : Bytes} (h : data.length < 8) :
    CRData.getInt64 data = (none, data) := if_pos h

end Reading

section Sequences

variable {sequences sequences' sequences'' : List SSequence} {r : SequenceRange}
  {ranges : List SequenceRange} {firstCompaction : Bool}

theorem nextOf_cons (s : SSequence) (id : Int) :
    nextOf (s :: sequences) id = if s.id = id then some s.next else nextOf sequences id := by
  unfold nextOf
  rw [List.find?_cons]
  by_cases h : s.id = id
  · rw [decide_eq_true h, if_pos h]
    rfl
  · rw [decide_eq_false h, if_neg h]

theorem nextOf_absent {id : Int} (h : id ∉ sequences.map (·.id)) : nextOf sequences id = none := by
  induction sequences with
  | nil => rfl
  | cons s sequences ih =>
    rw [List.map_cons, List.mem_cons, not_or] at h
    rw [nextOf_cons, if_neg (Ne.symm h.1)]
    exact ih h.2

theorem nextOf_known {id : Int} (h : id ∈ sequences.map (·.id)) :
    ∃ n, nextOf sequences id = some n := by
  induction sequences with
  | nil => cases h
  | cons s sequences ih =>
    rw [nextOf_cons]
    by_cases hid : s.id = id
    · exact ⟨s.next, if_pos hid⟩
    · rw [if_neg hid]
      rw [List.map_cons, List.mem_cons] at h
      exact ih (h.resolve_left (Ne.symm hid))

theorem stopOf_cons (id n : Int) :
    stopOf (r :: ranges) id n = if r.id = id then r.stop else stopOf ranges id n := by
  unfold stopOf
  rw [List.find?_cons]
  by_cases h : r.id = id
  · rw [decide_eq_true h, if_pos h]
    rfl
  · rw [decide_eq_false h, if_neg h]

theorem stopOf_absent {id n : Int} (h : id ∉ ranges.map (·.id)) : stopOf ranges id n = n := by
  induction ranges with
  | nil => rfl
  | cons r ranges ih =>
    rw [List.map_cons, List.mem_cons, not_or] at h
    rw [stopOf_cons, if_neg (Ne.symm h.1)]
    exact ih h.2

theorem stopOf_mem {n : Int} (hnodup : (ranges.map (·.id)).Nodup) (h : r ∈ ranges) :
    stopOf ranges r.id n = r.stop := by
  induction ranges with
  | nil => cases h
  | cons q ranges ih =>
    rw [List.map_cons, List.nodup_cons] at hnodup
    rw [stopOf_cons]
    rcases List.mem_cons.mp h with rfl | hmem
    · exact if_pos rfl
    · rw [if_neg]
      · exact ih hnodup.2 hmem
      · intro heq
        exact hnodup.1 (heq ▸ List.mem_map_of_mem hmem)

theorem Moved.refl (sequences : List SSequence) : Moved sequences [] sequences :=
  ⟨rfl, fun id => by cases nextOf sequences id <;> rfl⟩

theorem Moved.cons (h : Moved sequences [r] sequences') (h' : Moved sequences' ranges sequences'')
    (hr : r.id ∉ ranges.map (·.id)) : Moved sequences (r :: ranges) sequences'' := by
  refine ⟨h'.ids.trans h.ids, fun id => ?_⟩
  rw [h'.next, h.next, Option.map_map]
  congr 1
  funext n
  rw [Function.comp_apply, stopOf_cons, stopOf_cons]
  by_cases heq : r.id = id
  · subst heq
    rw [if_pos rfl, if_pos rfl, stopOf_absent hr]
  · rw [if_neg heq, if_neg heq]
    rfl

theorem Moved.nextOf_ne (h : Moved sequences [r] sequences') {id : Int} (hne : id ≠ r.id) :
    nextOf sequences' id = nextOf sequences id := by
  rw [h.next]
  cases nextOf sequences id with
  | none => rfl
  | some n =>
    rw [Option.map_some, stopOf_cons, if_neg (Ne.symm hne)]
    rfl

theorem checkSequence_absent {seqId seqStart seqStop : Int} (h : seqId ∉ sequences.map (·.id)) :
    checkSequence firstCompaction seqId seqStart seqStop sequences = (.fits, sequences) := by
  induction sequences with
  | nil => rfl
  | cons s sequences ih =>
    rw [List.map_cons, List.mem_cons, not_or] at h
    rw [checkSequence, if_neg (Ne.symm h.1), ih h.2]

theorem stopOf_ne {id : Int} (hne : r.id ≠ id) : stopOf [r] id = fun n => n := by
  funext n
  rw [stopOf_cons, if_neg hne]
  rfl

theorem Moved.head {q : SSequence} (hq : q.id = r.id) (updated : Bool) :
    Moved (q :: sequences) [r] ({ q with next := r.stop, updated } :: sequences) := by
  refine ⟨rfl, fun id => ?_⟩
  rw [nextOf_cons, nextOf_cons]
  by_cases hid : q.id = id
  · rw [if_pos hid, if_pos hid, Option.map_some, stopOf_cons, if_pos (hq.symm.trans hid)]
  · rw [if_neg hid, if_neg hid, stopOf_ne fun h => hid (hq.trans h)]
    exact Option.map_id'.symm

theorem Moved.tail {q : SSequence} (hq : q.id ≠ r.id) (h : Moved sequences [r] sequences') :
    Moved (q :: sequences) [r] (q :: sequences') := by
  refine ⟨?_, fun id => ?_⟩
  · rw [List.map_cons, List.map_cons, h.ids]
  · rw [nextOf_cons, nextOf_cons]
    by_cases hid : q.id = id
    · subst hid
      rw [if_pos rfl, if_pos rfl, stopOf_ne (Ne.symm hq)]
      rfl
    · rw [if_neg hid, if_neg hid]
      exact h.next id

theorem checkSequence_spec (hids : (sequences.map (·.id)).Nodup) :
    RangeChecked sequences firstCompaction r
      (checkSequence firstCompaction r.id r.start r.stop sequences) := by
  induction sequences with
  | nil => exact .fits (fun q _ n hn => absurd hn nofun) ⟨rfl, fun _ => rfl⟩
  | cons q sequences ih =>
    rw [List.map_cons, List.nodup_cons] at hids
    rw [checkSequence]
    by_cases hq : q.id = r.id
    · have hnext : nextOf (q :: sequences) r.id = some q.next := by
        rw [nextOf_cons, if_pos hq]
      rw [if_pos hq]
      by_cases hskip : firstCompaction = true ∧ r.start < q.next
      · rw [if_pos hskip]
        exact .skip hskip.1 hnext hskip.2 (.head hq q.updated)
      · rw [if_neg hskip]
        by_cases hgap : r.start ≠ q.next
        · rw [if_pos hgap]
          refine .gap hnext fun hfirst => ?_
          have hge : ¬ r.start < q.next := fun hlt => hskip ⟨hfirst, hlt⟩
          omega
        · have habsent := hids.1
          rw [hq] at habsent
          rw [if_neg hgap, checkSequence_absent habsent]
          refine .fits (fun r' hr' n hn => ?_) (.head hq true)
          cases List.mem_singleton.mp hr'
          rw [hnext] at hn
          exact (not_not.mp hgap).trans (Option.some.inj hn)
    · have hnext : nextOf (q :: sequences) r.id = nextOf sequences r.id := by
        rw [nextOf_cons, if_neg hq]
      rw [if_neg hq]
      cases hcheck : checkSequence firstCompaction r.id r.start r.stop sequences with
      | mk check sequences' =>
        have h := ih hids.2
        rw [hcheck] at h
        cases h with
        | fits h hmoved =>
          refine .fits (fun r' hr' n hn => ?_) (hmoved.tail hq)
          cases List.mem_singleton.mp hr'
          rw [hnext] at hn
          exact h r hr' n hn
        | skip hfirst hn hlt hmoved => exact .skip hfirst (hnext.trans hn) hlt (hmoved.tail hq)
        | gap hn hlt => exact .gap (hnext.trans hn) hlt

end Sequences

section Headers

variable {sequences sequences' : List SSequence} {r : SequenceRange}
  {ranges : List SequenceRange} {firstCompaction skip : Bool}

theorem Continues.cons (h : Continues sequences [r]) (hmoved : Moved sequences [r] sequences')
    (h' : Continues sequences' ranges) (hr : r.id ∉ ranges.map (·.id)) :
    Continues sequences (r :: ranges) := by
  intro q hq n hn
  rcases List.mem_cons.mp hq with rfl | hmem
  · exact h q List.mem_cons_self n hn
  · apply h' q hmem n
    rw [hmoved.nextOf_ne]
    · exact hn
    · intro heq
      exact hr (heq ▸ List.mem_map_of_mem hmem)

theorem Accepted.cons {final : List SSequence} (h : Continues sequences [r])
    (hmoved : Moved sequences [r] sequences') (hr : r.id ∉ ranges.map (·.id))
    (h' : Accepted sequences' firstCompaction ranges skip final) :
    Accepted sequences firstCompaction (r :: ranges) skip final := by
  cases h' with
  | fits h' hmoved' => exact .fits (h.cons hmoved h' hr) (hmoved.cons hmoved' hr)
  | @skip before q after n _ hfirst hranges h' hnext hlt hmoved' =>
    subst hranges
    have hbefore : r.id ∉ before.map (·.id) := by
      intro hmem
      exact hr (by rw [List.map_append]; exact List.mem_append_left _ hmem)
    have hq : r.id ∉ (before ++ [q]).map (·.id) := by
      intro hmem
      apply hr
      rw [List.map_append] at hmem ⊢
      rcases List.mem_append.mp hmem with hmem | hmem
      · exact List.mem_append_left _ hmem
      · exact List.mem_append_right _ (List.mem_singleton.mp hmem ▸ List.mem_cons_self)
    have hne : q.id ≠ r.id := by
      intro heq
      apply hq
      rw [List.map_append, ← heq]
      exact List.mem_append_right _ List.mem_cons_self
    exact .skip hfirst (List.cons_append ..).symm (h.cons hmoved h' hbefore)
      ((hmoved.nextOf_ne hne).symm.trans hnext) hlt (hmoved.cons hmoved' hq)
  | @gap before q after n _ hfirst hranges h' hnext hlt hmoved' =>
    subst hranges
    have hbefore : r.id ∉ before.map (·.id) := by
      intro hmem
      exact hr (by rw [List.map_append]; exact List.mem_append_left _ hmem)
    have hne : q.id ≠ r.id := by
      intro heq
      apply hr
      rw [List.map_append, ← heq]
      exact List.mem_append_right _ List.mem_cons_self
    exact .gap hfirst (List.cons_append ..).symm (h.cons hmoved h' hbefore)
      ((hmoved.nextOf_ne hne).symm.trans hnext) hlt (hmoved.cons hmoved' hbefore)

/-- A range is read, unless the data are cut before its end. -/
theorem checkRanges_range (rest : Bytes) (n k : Nat) :
    checkRanges firstCompaction (n + 1) ((r.encode ++ rest).take k) sequences =
        (match checkSequence firstCompaction r.id r.start r.stop sequences with
          | (.skip, sequences) => ⟨true, true, rest.take (k - 24), sequences⟩
          | (.gap, sequences) => ⟨firstCompaction, false, rest.take (k - 24), sequences⟩
          | (.fits, sequences) => checkRanges firstCompaction n (rest.take (k - 24)) sequences) ∨
      (checkRanges firstCompaction (n + 1) ((r.encode ++ rest).take k) sequences).ok = false := by
  have hshort (data : Bytes) {j : Nat} (hj : j < 8) : (data.take j).length < 8 :=
    (List.length_take_le _ _).trans_lt hj
  have hdata : r.encode ++ rest =
      encodeInt64 r.id ++ (encodeInt64 r.start ++ (encodeInt64 r.stop ++ rest)) := by
    rw [SequenceRange.encode]
    simp only [List.append_assoc]
  rw [hdata, checkRanges]
  by_cases hid : k < 8
  · rw [getInt64_short (hshort _ hid)]
    exact .inr rfl
  rw [getInt64_take r.id_bounds (Nat.not_lt.mp hid)]
  dsimp only
  by_cases hstart : k - 8 < 8
  · rw [getInt64_short (hshort _ hstart)]
    exact .inr rfl
  rw [getInt64_take r.start_bounds (Nat.not_lt.mp hstart)]
  dsimp only
  by_cases hstop : k - 8 - 8 < 8
  · rw [getInt64_short (hshort _ hstop)]
    exact .inr rfl
  rw [getInt64_take r.stop_bounds (Nat.not_lt.mp hstop), Nat.sub_sub, Nat.sub_sub]
  exact .inl rfl

/-- A header that is accepted. Induction on its ranges, of which the data may be cut. -/
theorem checkRanges_spec (hids : (sequences.map (·.id)).Nodup) (hranges : (ranges.map (·.id)).Nodup)
    (body : Bytes) (k : Nat) {header : HeaderCheck} (hheader : checkRanges firstCompaction
      ranges.length ((ranges.flatMap (·.encode) ++ body).take k) sequences = header)
    (hok : header.ok = true) :
    Accepted sequences firstCompaction ranges header.skip header.sequences := by
  induction ranges generalizing sequences k header with
  | nil =>
    subst hheader
    exact .fits (fun q hq => absurd hq List.not_mem_nil) (.refl sequences)
  | cons r ranges ih =>
    rw [List.map_cons, List.nodup_cons] at hranges
    rw [List.flatMap_cons, List.append_assoc, List.length_cons] at hheader
    rcases checkRanges_range (ranges.flatMap (·.encode) ++ body) ranges.length k with heq | hfail
    · rw [hheader] at heq
      subst heq
      have hrange := @checkSequence_spec _ r firstCompaction hids
      revert hrange hok
      cases checkSequence firstCompaction r.id r.start r.stop sequences with
      | mk check sequences' =>
        intro hok hrange
        cases hrange with
        | fits h hmoved =>
          have hids' : (sequences'.map (·.id)).Nodup := hmoved.ids ▸ hids
          exact (ih hids' hranges.2 (k - 24) rfl hok).cons h hmoved hranges.1
        | skip hfirst hnext hlt hmoved =>
          exact .skip hfirst rfl (fun q hq => absurd hq List.not_mem_nil) hnext hlt hmoved
        | gap hnext hlt =>
          have hfirst : firstCompaction = true := hok
          exact .gap hfirst rfl (fun q hq => absurd hq List.not_mem_nil) hnext (hlt hfirst)
            (.refl _)
    · rw [hheader, hok] at hfail
      cases hfail

end Headers

section Counts

variable {initial sequences sequences' : List SSequence} {taken : List ChangeMessage}
  {m : ChangeMessage} {firstCompaction skip : Bool}

theorem ChangeMessage.covers_iff {r : SequenceRange} (hr : r ∈ m.ranges) (p : Int) :
    m.Covers r.id p ↔ r.start ≤ p ∧ p < r.stop := by
  constructor
  · rintro ⟨q, hq, hid, hcovers⟩
    have hsame : q = r := List.inj_on_of_nodup_map m.nodup hq hr hid
    exact hsame ▸ hcovers
  · exact fun h => ⟨r, hr, rfl, h⟩

theorem ChangeMessage.not_covers {id : Int} (h : ∀ r ∈ m.ranges, r.id ≠ id) (p : Int) :
    ¬ m.Covers id p := fun ⟨r, hr, hid, _⟩ => h r hr hid

theorem count_append (id p : Int) :
    (taken ++ [m]).countP (fun m => decide (m.Covers id p)) =
      taken.countP (fun m => decide (m.Covers id p)) + if m.Covers id p then 1 else 0 := by
  rw [List.countP_append, List.countP_singleton]
  simp only [decide_eq_true_eq]

theorem Counted.move {ranges : List SequenceRange} {taken' : List ChangeMessage}
    (h : Counted initial sequences taken) (hmoved : Moved sequences ranges sequences')
    (hcount : ∀ id i n, nextOf initial id = some i → nextOf sequences id = some n → ∀ p, i ≤ p →
      (taken.countP (fun m => decide (m.Covers id p)) = if p < n then 1 else 0) →
        taken'.countP (fun m => decide (m.Covers id p)) = if p < stopOf ranges id n then 1 else 0) :
    Counted initial sequences' taken' := by
  refine ⟨hmoved.ids.trans h.ids, fun id i n' hi hn' p hp => ?_⟩
  rw [hmoved.next, Option.map_eq_some_iff] at hn'
  obtain ⟨n, hn, rfl⟩ := hn'
  exact hcount id i n hi hn p hp (h.count id i n hi hn p hp)

theorem count_extend {n start stop p : Int} (hle : start ≤ stop) (hstart : start = n) :
    ((if p < n then 1 else 0) + if start ≤ p ∧ p < stop then 1 else 0) =
      if p < stop then 1 else 0 := by
  subst hstart
  by_cases hp : p < start
  · rw [if_pos hp, if_neg (by omega), if_pos (by omega)]
  · rw [if_neg hp, Nat.zero_add]
    by_cases hstop : p < stop
    · rw [if_pos hstop, if_pos ⟨by omega, hstop⟩]
    · rw [if_neg hstop, if_neg (by omega)]

theorem stopOf_not_covers {ranges : List SequenceRange} {id n : Int}
    (h : ¬ ∃ r ∈ ranges, r.id = id) : stopOf ranges id n = n := by
  apply stopOf_absent
  intro hmem
  obtain ⟨r, hr, hid⟩ := List.mem_map.mp hmem
  exact h ⟨r, hr, hid⟩

theorem Counted.known (h : Counted initial sequences taken) {id n : Int}
    (hn : nextOf sequences id = some n) : ∃ i, nextOf initial id = some i := by
  have hmem : id ∈ initial.map (·.id) := by
    by_contra habsent
    rw [← h.ids] at habsent
    rw [nextOf_absent habsent] at hn
    cases hn
  exact nextOf_known hmem

theorem Accepted.counted (h : Accepted sequences firstCompaction m.ranges skip sequences')
    (hcounted : Counted initial sequences taken)
    (hharmless : firstCompaction = true → m.Harmless initial sequences) :
    Counted initial sequences' (if skip then taken else taken ++ [m]) := by
  have hnodup := m.nodup
  cases h with
  | fits hfits hmoved =>
    refine hcounted.move hmoved fun id i n hi hn p hp hcount => ?_
    rw [if_neg nofun, count_append, hcount]
    by_cases hr : ∃ r ∈ m.ranges, r.id = id
    · obtain ⟨r, hr, rfl⟩ := hr
      rw [stopOf_mem m.nodup hr]
      simp only [m.covers_iff hr]
      exact count_extend r.le (hfits r hr n hn)
    · rw [stopOf_not_covers hr,
        if_neg (m.not_covers (fun r hr' hid => hr ⟨r, hr', hid⟩) p), Nat.add_zero]
  | @skip before r after k _ hfirst hranges h hnext hlt hmoved =>
    rw [hranges, List.append_cons, List.map_append] at hnodup
    refine hcounted.move hmoved fun id i n hi hn p hp hcount => ?_
    rw [if_pos rfl, hcount]
    by_cases hq : ∃ q ∈ before ++ [r], q.id = id
    · obtain ⟨q, hq, rfl⟩ := hq
      rw [stopOf_mem hnodup.of_append_left hq]
      rcases List.mem_append.mp hq with hbefore | hlast
      · obtain ⟨i', hi'⟩ := hcounted.known hnext
        have hold := ((hharmless hfirst before r after k i' hranges h hnext hi').1 hlt).2 q hbefore
          i hi
        have hstart := h q hbefore n hn
        have hsame : p < n ↔ p < q.stop := by omega
        simp only [hsame]
      · cases List.mem_singleton.mp hlast
        have hkn : k = n := Option.some.inj (hnext.symm.trans hn)
        subst hkn
        have hold := ((hharmless hfirst before r after k i hranges h hnext hi).1 hlt).1
        have hsame : p < k ↔ p < r.stop := by omega
        simp only [hsame]
    · rw [stopOf_not_covers hq]
  | @gap before r after k _ hfirst hranges h hnext hlt hmoved =>
    refine hcounted.move hmoved fun id i n hi hn p hp hcount => ?_
    rw [if_neg nofun, count_append, hcount]
    by_cases hq : ∃ q ∈ m.ranges, q.id = id
    · obtain ⟨q, hq, rfl⟩ := hq
      simp only [m.covers_iff hq]
      rw [hranges, List.map_append] at hnodup
      rw [hranges] at hq
      rcases List.mem_append.mp hq with hbefore | hafter
      · rw [stopOf_mem hnodup.of_append_left hbefore]
        exact count_extend q.le (h q hbefore n hn)
      · obtain ⟨i', hi'⟩ := hcounted.known hnext
        have hold := (hharmless hfirst before r after k i' hranges h hnext hi').2 hlt q hafter i hi
        have habsent : q.id ∉ before.map (·.id) := fun hmem =>
          (List.disjoint_of_nodup_append hnodup) hmem (List.mem_map_of_mem hafter)
        have hno : ¬ (q.start ≤ p ∧ p < q.stop) := by omega
        rw [stopOf_absent habsent, if_neg hno, Nat.add_zero]
    · have habsent : ¬ ∃ q ∈ before, q.id = id := fun ⟨q, hq', hid⟩ =>
        hq ⟨q, hranges ▸ List.mem_append_left _ hq', hid⟩
      rw [stopOf_not_covers habsent,
        if_neg (m.not_covers (fun r hr' hid => hq ⟨r, hr', hid⟩) p), Nat.add_zero]

end Counts

namespace BackupServerContinuous

section Runs

variable {s : BackupServerContinuous} {initial : List SSequence} {messages : List ChangeMessage}
  {before : List ChangeMessage}

theorem header_accepted (m : ChangeMessage) (hids : (s.sequences.map (·.id)).Nodup)
    (hok : (s.header m.encode).ok = true) :
    Accepted s.sequences s.firstCompaction m.ranges (s.header m.encode).skip
      (s.header m.encode).sequences := by
  obtain ⟨k, hk, hset⟩ : ∃ k, 4 ≤ k ∧ CRData.set m.encode = changeHeader ::
      (littleEndian 4 m.ranges.length ++ (m.ranges.flatMap (·.encode) ++ m.body)).take k :=
    ⟨100 * 1024 * 1024 - 1, by decide, rfl⟩
  have hheader : s.header m.encode = checkRanges s.firstCompaction m.ranges.length
      ((m.ranges.flatMap (·.encode) ++ m.body).take (k - 4)) s.sequences := by
    unfold header
    rw [hset, CRData.getChar]
    dsimp only
    rw [if_neg (fun h => h rfl), checkHeaderAndUpdate, getUInt_take m.short hk]
  exact checkRanges_spec hids m.nodup m.body (k - 4) hheader.symm hok

theorem taken_append (steps steps' : List (BackupServerContinuous × ChangeMessage)) :
    taken (steps ++ steps') = taken steps ++ taken steps' := by
  unfold taken
  rw [List.filter_append, List.map_append]

theorem compactMessage_sequences (message : Bytes) :
    (s.compactMessage message).2.sequences = (s.header message).sequences ∧
      (s.compactMessage message).2.firstCompaction = s.firstCompaction ∧
        ((s.compactMessage message).1 = true → (s.header message).ok = true) := by
  unfold compactMessage
  dsimp only
  split
  · exact ⟨rfl, rfl, nofun⟩
  · next hok =>
      rw [Bool.not_eq_false] at hok
      split
      · exact ⟨rfl, rfl, fun _ => hok⟩
      · exact ⟨rfl, rfl, fun _ => hok⟩

theorem counted_message (m : ChangeMessage) (hids : (initial.map (·.id)).Nodup)
    (hcounted : Counted initial s.sequences before)
    (htrue : (s.compactMessage m.encode).1 = true)
    (hharmless : s.firstCompaction = true → m.Harmless initial s.sequences) :
    Counted initial (s.compactMessage m.encode).2.sequences (before ++ taken [(s, m)]) := by
  obtain ⟨hsequences, -, hheader⟩ := @compactMessage_sequences s m.encode
  have hok := hheader htrue
  have haccepted := header_accepted m (hcounted.ids ▸ hids) hok
  have hnext := haccepted.counted hcounted hharmless
  rw [hsequences]
  unfold taken
  rw [List.filter_cons]
  unfold takesOver
  rw [hok]
  cases hskip : (s.header m.encode).skip with
  | true =>
    rw [hskip] at hnext
    rw [if_neg nofun]
    exact (List.append_nil before).symm ▸ hnext
  | false =>
    rw [hskip] at hnext
    exact hnext

theorem counted_messages (hids : (initial.map (·.id)).Nodup)
    (hcounted : Counted initial s.sequences before)
    (htrue : (s.compactMessages (messages.map ChangeMessage.encode)).1 = true)
    (hharmless : ∀ step ∈ s.messageSteps messages, step.1.firstCompaction = true →
      step.2.Harmless initial step.1.sequences) :
    Counted initial (s.compactMessages (messages.map ChangeMessage.encode)).2.sequences
      (before ++ taken (s.messageSteps messages)) := by
  induction messages generalizing s before with
  | nil => exact (List.append_nil before).symm ▸ hcounted
  | cons m messages ih =>
    rw [List.map_cons, compactMessages] at htrue ⊢
    rw [messageSteps] at hharmless ⊢
    obtain ⟨hfirst, hrest⟩ := (Bool.and_eq_true _ _).mp htrue
    have hone := counted_message m hids hcounted hfirst (hharmless _ List.mem_cons_self)
    have hall := ih hone hrest fun step hstep => hharmless step (List.mem_cons_of_mem _ hstep)
    rw [List.append_assoc, ← taken_append] at hall
    exact hall

/-- Any runs. Induction on them. -/
theorem counted_runs {runs : List (List ChangeMessage)} (hids : (initial.map (·.id)).Nodup)
    (hcounted : Counted initial s.sequences before) (htrue : s.AllTrue runs)
    (hharmless : ∀ step ∈ s.steps runs, step.1.firstCompaction = true →
      step.2.Harmless initial step.1.sequences) :
    Counted initial (s.runs runs).sequences (before ++ taken (s.steps runs)) := by
  induction runs generalizing s before with
  | nil => exact (List.append_nil before).symm ▸ hcounted
  | cons messages runs ih =>
    obtain ⟨hfirst, hrest⟩ := htrue
    rw [steps] at hharmless ⊢
    have hone := @counted_messages { s with changes := messages.map ChangeMessage.encode } initial
      messages before hids hcounted hfirst
      fun step hstep => hharmless step (List.mem_append_left _ hstep)
    have hall := @ih (s.run messages).2 _ hone hrest
      fun step hstep => hharmless step (List.mem_append_right _ hstep)
    rw [List.append_assoc, ← taken_append] at hall
    exact hall

/-- No change is lost, and none is taken over twice. -/
def Complete (initial : List SSequence) (runs : List (List ChangeMessage)) : Prop :=
  ∀ id i n, nextOf initial id = some i → nextOf ((start initial).runs runs).sequences id = some n →
    ∀ p, i ≤ p → p < n →
      (taken ((start initial).steps runs)).countP (fun m => decide (m.Covers id p)) = 1

theorem nothing_counted (initial : List SSequence) : Counted initial initial [] := by
  refine ⟨rfl, fun id i n hi hn p hp => ?_⟩
  have hsame : i = n := Option.some.inj (hi.symm.trans hn)
  rw [if_neg (by omega)]
  rfl

/-- Every position is covered by exactly one message that was taken over, if every message of the
first run does no harm. -/
theorem changes_are_complete {runs : List (List ChangeMessage)} (hids : (initial.map (·.id)).Nodup)
    (htrue : (start initial).AllTrue runs)
    (hharmless : ∀ step ∈ (start initial).steps runs, step.1.firstCompaction = true →
      step.2.Harmless initial step.1.sequences) : Complete initial runs := by
  intro id i n hi hn p hp hlt
  have hcounted := @counted_runs (start initial) initial [] runs hids (nothing_counted initial) htrue
    hharmless
  rw [List.nil_append] at hcounted
  rw [hcounted.count id i n hi hn p hp]
  exact if_pos hlt

end Runs

section Samples

def sampleSequences : List SSequence := [⟨1, 10, false⟩]

def sampleMessage (start stop : Fin 100) (h : start ≤ stop) : ChangeMessage where
  ranges := [⟨1, start, stop, by exact_mod_cast h, by decide, by omega, by omega⟩]
  body := []
  nodup := List.nodup_singleton _
  short := show 1 < 2 ^ 32 by decide

theorem harmless_sampleMessage {initial sequences : List SSequence} {start stop : Fin 100}
    (h : start ≤ stop) {n i : Int} (hn : nextOf sequences 1 = some n) (hi : nextOf initial 1 = some i)
    (hle : start ≤ n) (hmax : start < n → max (stop : Int) i = max n i) :
    (sampleMessage start stop h).Harmless initial sequences := by
  intro before r after n' i' hranges _ hn' hi'
  have hbefore : before = [] := by
    have hlength := congrArg List.length hranges
    rw [List.length_append, List.length_cons] at hlength
    change 1 = _ at hlength
    exact List.eq_nil_of_length_eq_zero (by omega)
  subst hbefore
  have hr : _ = r := (List.cons.inj hranges).1
  subst hr
  cases hn.symm.trans hn'
  cases hi.symm.trans hi'
  refine ⟨fun hlt => ⟨hmax hlt, fun q hq => absurd hq List.not_mem_nil⟩, fun hlt => ?_⟩
  exact absurd hle (Int.not_le.mpr hlt)

def sampleRuns : List (List ChangeMessage) :=
  [[sampleMessage 0 10 (by decide), sampleMessage 10 15 (by decide)]]

theorem sampleRuns_true : (start sampleSequences).AllTrue sampleRuns := by
  refine ⟨?_, trivial⟩
  decide +kernel

theorem changes_are_complete_sampleRuns : Complete sampleSequences sampleRuns := by
  refine changes_are_complete (by decide) sampleRuns_true fun step hstep _ => ?_
  change step ∈ messageSteps _ _ ++ [] at hstep
  rw [List.append_nil, messageSteps, messageSteps, messageSteps] at hstep
  rcases List.mem_cons.mp hstep with rfl | hstep
  · exact @harmless_sampleMessage _ _ 0 10 (by decide) 10 10 rfl rfl (by decide) (by decide)
  · cases List.mem_singleton.mp hstep
    exact @harmless_sampleMessage _ _ 10 15 (by decide) 10 10 (by decide +kernel) rfl (by decide) (by decide)

/-- The changes from 10 to 15 are lost if they come in a message that begins before. -/
theorem changes_are_lost : ¬ ∀ (initial : List SSequence) (runs : List (List ChangeMessage)),
    (initial.map (·.id)).Nodup → (start initial).AllTrue runs → Complete initial runs := by
  intro hclaim
  have htrue : (start sampleSequences).AllTrue [[sampleMessage 5 15 (by decide)]] := by
    refine ⟨?_, trivial⟩
    decide +kernel
  have hcomplete := hclaim sampleSequences _ (by decide) htrue 1 10 15 rfl
    (by decide +kernel) 10 le_rfl (by decide)
  revert hcomplete
  decide +kernel

end Samples

end BackupServerContinuous

end UrBackup
