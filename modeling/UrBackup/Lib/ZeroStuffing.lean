import Mathlib.Data.List.Basic
import Mathlib.Order.Nat

/-! Messages in a byte stream that end with `n` zeros and an end byte. In a message an escape
byte follows every run of `n` zeros. -/
namespace ZeroStuffing

variable (n : Nat)

def escapeByte : UInt8 := 2

def endByte : UInt8 := 1

def count (k : Nat) (b : UInt8) : Nat :=
  if b = 0 then if k + 1 = n then 0 else k + 1 else 0

def countAll (k : Nat) (bs : List UInt8) : Nat := bs.foldl (count n) k

/-- The escape byte is put behind every run of `n` zeros. -/
def stuff : Nat → List UInt8 → List UInt8
  | _, [] => []
  | k, b :: bs =>
    (if b = 0 ∧ k + 1 = n then [b, escapeByte] else [b]) ++ stuff (count n k b) bs

/-- What has arrived of a message, the zeros at its end, and what became of the ones before. -/
structure Receiver (σ : Type*) where
  pending : List UInt8
  zeros : Nat
  out : σ

variable {σ : Type*} (deliver : σ → List UInt8 → Option σ)

def Receiver.feedByte (r : Receiver σ) (b : UInt8) : Option (Receiver σ) :=
  if r.zeros = n then
    if b = escapeByte then some { r with zeros := 0 }
    else if b = endByte then
      (deliver r.out (r.pending.take (r.pending.length - n))).map fun out => ⟨[], 0, out⟩
    else if b = 0 then some { r with pending := r.pending ++ [b] }
    else none
  else some { r with pending := r.pending ++ [b], zeros := if b = 0 then r.zeros + 1 else 0 }

def Receiver.feed (r : Receiver σ) (bs : List UInt8) : Option (Receiver σ) :=
  bs.foldlM (Receiver.feedByte n deliver) r

section Stuff

variable {n : Nat}

theorem stuff_append (k : Nat) (as bs : List UInt8) :
    stuff n k (as ++ bs) = stuff n k as ++ stuff n (countAll n k as) bs := by
  induction as generalizing k with
  | nil => rfl
  | cons a as ih =>
    rw [List.cons_append, stuff, ih, stuff, List.append_assoc]
    rfl

theorem countAll_append (k : Nat) (as bs : List UInt8) :
    countAll n k (as ++ bs) = countAll n (countAll n k as) bs := List.foldl_append

theorem count_lt {k : Nat} (hk : k < n) (b : UInt8) : count n k b < n := by
  unfold count
  split
  · split
    · omega
    · omega
  · omega

theorem countAll_lt {k : Nat} (hk : k < n) (bs : List UInt8) : countAll n k bs < n := by
  induction bs generalizing k with
  | nil => exact hk
  | cons b bs ih => exact ih (count_lt hk b)

end Stuff

section Feed

variable {n deliver} {r r' : Receiver σ}

theorem feed_cons (r : Receiver σ) (b : UInt8) (bs : List UInt8) :
    r.feed n deliver (b :: bs) = (r.feedByte n deliver b).bind fun r => r.feed n deliver bs := rfl

/-- Where the stream is cut does not matter. -/
theorem feed_append (r : Receiver σ) (as bs : List UInt8) :
    r.feed n deliver (as ++ bs) = (r.feed n deliver as).bind fun r => r.feed n deliver bs :=
  List.foldlM_append

theorem feed_stuff (r : Receiver σ) (hzeros : r.zeros < n) (bs : List UInt8) :
    r.feed n deliver (stuff n r.zeros bs) =
      some { r with pending := r.pending ++ bs, zeros := countAll n r.zeros bs } := by
  induction bs generalizing r with
  | nil =>
    rw [List.append_nil]
    rfl
  | cons b bs ih =>
    have hne : r.zeros ≠ n := Nat.ne_of_lt hzeros
    rw [stuff, feed_append]
    by_cases hescape : b = 0 ∧ r.zeros + 1 = n
    · have hcount : count n r.zeros b = 0 := by
        rw [count, if_pos hescape.1, if_pos hescape.2]
      have hfeed : r.feed n deliver [b, escapeByte] =
          some { r with pending := r.pending ++ [b], zeros := 0 } := by
        rw [feed_cons, Receiver.feedByte, if_neg hne, if_pos hescape.1]
        simp only [Option.bind_some, feed_cons, Receiver.feedByte, hescape.2, if_true]
        rfl
      rw [if_pos hescape, hfeed, Option.bind_some, hcount]
      refine (ih { r with pending := r.pending ++ [b], zeros := 0 }
        (Nat.zero_lt_of_lt hzeros)).trans ?_
      simp only [countAll, List.foldl_cons, hcount, List.append_assoc, List.singleton_append]
    · have hcount : count n r.zeros b = if b = 0 then r.zeros + 1 else 0 := by
        unfold count
        by_cases hb : b = 0
        · rw [if_pos hb, if_pos hb, if_neg fun h => hescape ⟨hb, h⟩]
        · rw [if_neg hb, if_neg hb]
      have hfeed : r.feed n deliver [b] =
          some { r with pending := r.pending ++ [b], zeros := count n r.zeros b } := by
        rw [feed_cons, Receiver.feedByte, if_neg hne, hcount]
        rfl
      rw [if_neg hescape, hfeed, Option.bind_some]
      refine (ih { r with pending := r.pending ++ [b], zeros := count n r.zeros b }
        (count_lt hzeros b)).trans ?_
      simp only [countAll, List.foldl_cons, List.append_assoc, List.singleton_append]

theorem feed_zeros_le {bs : List UInt8} (hzeros : r.zeros ≤ n)
    (h : r.feed n deliver bs = some r') : r'.zeros ≤ n := by
  induction bs generalizing r with
  | nil =>
    cases h
    exact hzeros
  | cons b bs ih =>
    obtain ⟨r₁, hbyte, hrest⟩ := Option.bind_eq_some_iff.mp h
    refine ih ?_ hrest
    unfold Receiver.feedByte at hbyte
    split at hbyte
    · split at hbyte
      · cases hbyte
        exact Nat.zero_le n
      · split at hbyte
        · obtain ⟨out, -, rfl⟩ := Option.map_eq_some_iff.mp hbyte
          exact Nat.zero_le n
        · split at hbyte
          · cases hbyte
            exact hzeros
          · cases hbyte
    · cases hbyte
      simp only
      split
      · omega
      · exact Nat.zero_le n

theorem feed_zeros (r : Receiver σ) (hzeros : r.zeros ≤ n) (m : Nat) :
    r.feed n deliver (List.replicate m 0) =
      some { r with pending := r.pending ++ List.replicate m 0, zeros := min n (r.zeros + m) } := by
  induction m generalizing r with
  | zero =>
    rw [List.replicate_zero, List.append_nil, Nat.add_zero, Nat.min_eq_right hzeros]
    rfl
  | succ m ih =>
    have hbyte : r.feedByte n deliver 0 =
        some { r with pending := r.pending ++ [0], zeros := min n (r.zeros + 1) } := by
      unfold Receiver.feedByte
      by_cases hn : r.zeros = n
      · rw [if_pos hn, if_neg (by decide), if_neg (by decide), if_pos rfl, hn,
          Nat.min_eq_left (Nat.le_succ n)]
      · rw [if_neg hn, if_pos rfl, Nat.min_eq_right (by omega)]
    rw [List.replicate_succ, feed_cons, hbyte, Option.bind_some]
    refine (ih { r with pending := r.pending ++ [0], zeros := min n (r.zeros + 1) }
      (Nat.min_le_left _ _)).trans ?_
    have hmin : min n (min n (r.zeros + 1) + m) = min n (r.zeros + (m + 1)) := by omega
    simp only [hmin, List.append_assoc, List.singleton_append]

theorem feed_marker (r : Receiver σ) (hzeros : r.zeros < n) :
    r.feed n deliver (List.replicate n 0 ++ [endByte]) =
      (deliver r.out r.pending).map fun out => ⟨[], 0, out⟩ := by
  have hmin : min n (r.zeros + n) = n := by omega
  rw [feed_append, feed_zeros r (Nat.le_of_lt hzeros), Option.bind_some, hmin, feed_cons, Receiver.feedByte,
    if_pos rfl, if_neg (by decide), if_pos rfl, List.length_append, List.length_replicate,
    Nat.add_sub_cancel, List.take_left]
  cases deliver r.out r.pending with
  | none => rfl
  | some out => rfl

theorem feed_collect {ms ms' : List (List UInt8)} {p p' bs : List UInt8} {z z' : Nat} (o : σ)
    (h : Receiver.feed n (fun ms m => some (ms ++ [m])) ⟨p, z, ms⟩ bs = some ⟨p', z', ms'⟩) :
    ∃ new, ms' = ms ++ new ∧ Receiver.feed n deliver ⟨p, z, o⟩ bs =
      (new.foldlM deliver o).map fun o => ⟨p', z', o⟩ := by
  induction bs generalizing p z ms o with
  | nil =>
    cases h
    exact ⟨[], (List.append_nil _).symm, rfl⟩
  | cons b bs ih =>
    rw [feed_cons] at h ⊢
    obtain ⟨⟨p₁, z₁, ms₁⟩, hbyte, hrest⟩ := Option.bind_eq_some_iff.mp h
    unfold Receiver.feedByte at hbyte ⊢
    simp only at hbyte ⊢
    by_cases hz : z = n
    · rw [if_pos hz] at hbyte ⊢
      by_cases hescape : b = escapeByte
      · rw [if_pos hescape] at hbyte ⊢
        cases hbyte
        exact ih o hrest
      · rw [if_neg hescape] at hbyte ⊢
        by_cases hend : b = endByte
        · rw [if_pos hend] at hbyte ⊢
          cases hbyte
          cases hdel : deliver o (p.take (p.length - n)) with
          | none =>
            obtain ⟨new, hnew, -⟩ := ih o hrest
            refine ⟨p.take (p.length - n) :: new, by rw [hnew, List.append_assoc]; rfl, ?_⟩
            rw [List.foldlM_cons, hdel]
            rfl
          | some o₁ =>
            obtain ⟨new, hnew, hfeed⟩ := ih o₁ hrest
            refine ⟨p.take (p.length - n) :: new, by rw [hnew, List.append_assoc]; rfl, ?_⟩
            rw [List.foldlM_cons, hdel]
            exact hfeed
        · rw [if_neg hend] at hbyte ⊢
          by_cases hzero : b = 0
          · rw [if_pos hzero] at hbyte ⊢
            cases hbyte
            exact ih o hrest
          · rw [if_neg hzero] at hbyte
            cases hbyte
    · rw [if_neg hz] at hbyte ⊢
      cases hbyte
      exact ih o hrest

end Feed

/-- Bytes without the escape bytes among them: up to an end mark, with the mark, or all. -/
inductive Unescaped where
  | unfinished (bytes : List UInt8) (zeros : Nat)
  | finished (bytes rest : List UInt8)
  | corrupt

def Unescaped.cons (b : UInt8) : Unescaped → Unescaped
  | .unfinished bytes zeros => .unfinished (b :: bytes) zeros
  | .finished bytes rest => .finished (b :: bytes) rest
  | .corrupt => .corrupt

def unescape : Nat → List UInt8 → Unescaped
  | k, [] => .unfinished [] k
  | k, b :: bs =>
    if k = n then
      if b = escapeByte then unescape 0 bs
      else if b = endByte then .finished [b] bs
      else if b = 0 then (unescape k bs).cons b
      else .corrupt
    else (unescape (if b = 0 then k + 1 else 0) bs).cons b

section Unescape

variable {n : Nat} {k : Nat} {b : UInt8} {bs bytes rest : List UInt8} {zeros : Nat} {u : Unescaped}

theorem Unescaped.cons_eq_unfinished (h : u.cons b = .unfinished bytes zeros) :
    ∃ bytes', bytes = b :: bytes' ∧ u = .unfinished bytes' zeros := by
  cases u with
  | unfinished bytes' zeros' =>
    cases h
    exact ⟨bytes', rfl, rfl⟩
  | finished bytes' rest => cases h
  | corrupt => cases h

theorem Unescaped.cons_eq_finished (h : u.cons b = .finished bytes rest) :
    ∃ bytes', bytes = b :: bytes' ∧ u = .finished bytes' rest := by
  cases u with
  | unfinished bytes' zeros' => cases h
  | finished bytes' rest' =>
    cases h
    exact ⟨bytes', rfl, rfl⟩
  | corrupt => cases h

theorem feed_unescape (deliver : σ → List UInt8 → Option σ) (p : List UInt8) (k : Nat) (o : σ)
    (data : List UInt8) :
    Receiver.feed n deliver ⟨p, k, o⟩ data =
      match unescape n k data with
      | .unfinished bytes zeros => some ⟨p ++ bytes, zeros, o⟩
      | .finished bytes rest =>
        (deliver o ((p ++ bytes).take ((p ++ bytes).length - (n + 1)))).bind fun o =>
          Receiver.feed n deliver ⟨[], 0, o⟩ rest
      | .corrupt => none := by
  induction data generalizing p k with
  | nil =>
    simp only [unescape, List.append_nil]
    rfl
  | cons b bs ih =>
    rw [feed_cons, unescape]
    unfold Receiver.feedByte
    simp only
    by_cases hk : k = n
    · rw [if_pos hk, if_pos hk]
      by_cases hescape : b = escapeByte
      · rw [if_pos hescape, if_pos hescape]
        exact ih p 0
      · rw [if_neg hescape, if_neg hescape]
        by_cases hend : b = endByte
        · rw [if_pos hend, if_pos hend]
          have hlen : (p ++ [b]).length - (n + 1) = p.length - n := by
            rw [List.length_append, List.length_singleton]
            omega
          simp only [hlen, List.take_append_of_le_length (Nat.sub_le p.length n)]
          cases deliver o (p.take (p.length - n)) with
          | none => rfl
          | some o' => rfl
        · rw [if_neg hend, if_neg hend]
          by_cases hzero : b = 0
          · rw [if_pos hzero, if_pos hzero, Option.bind_some, ih]
            cases unescape n k bs <;> simp [Unescaped.cons]
          · rw [if_neg hzero, if_neg hzero]
            rfl
    · rw [if_neg hk, if_neg hk, Option.bind_some, ih]
      cases unescape n (if b = 0 then k + 1 else 0) bs <;> simp [Unescaped.cons]

/-- The zeros at the end of an unfinished message are the last ones, and the ones before the
bytes where these do not reach. -/
theorem unescape_zeros (h : unescape n k bs = .unfinished bytes zeros) :
    (zeros ≤ bytes.length → ∃ front, bytes = front ++ List.replicate zeros 0) ∧
    (bytes.length < zeros →
      bytes = List.replicate bytes.length 0 ∧ bs = bytes ∧ k ≤ zeros ∧ zeros ≤ k + bytes.length) := by
  induction bs generalizing k bytes with
  | nil =>
    cases h
    refine ⟨fun hle => ⟨[], ?_⟩, fun _ => ⟨rfl, rfl, Nat.le_refl _, Nat.le_refl _⟩⟩
    rw [Nat.le_zero.mp hle]
    rfl
  | cons b bs ih =>
    rw [unescape] at h
    have hzero : ∀ {bytes' k'}, unescape n k' bs = .unfinished bytes' zeros → b = 0 →
        bytes = b :: bytes' → k ≤ k' → k' ≤ k + 1 →
        (zeros ≤ bytes.length → ∃ front, bytes = front ++ List.replicate zeros 0) ∧
        (bytes.length < zeros →
          bytes = List.replicate bytes.length 0 ∧ b :: bs = bytes ∧ k ≤ zeros ∧ zeros ≤ k + bytes.length) := by
      rintro bytes' k' hrest rfl rfl hkk hk
      obtain ⟨hlong, hshort⟩ := ih hrest
      constructor
      · intro hle
        by_cases hlen : zeros ≤ bytes'.length
        · obtain ⟨front, hfront⟩ := hlong hlen
          exact ⟨0 :: front, congrArg _ hfront⟩
        · have heq : zeros = bytes'.length + 1 := by
            simp only [List.length_cons] at hle
            omega
          obtain ⟨hbytes, -⟩ := hshort (by omega)
          refine ⟨[], ?_⟩
          rw [heq, List.replicate_succ, ← hbytes]
          rfl
      · intro hlt
        simp only [List.length_cons] at hlt
        obtain ⟨hbytes, hbs, hge, hle⟩ := hshort (by omega)
        refine ⟨?_, congrArg _ hbs, by omega, ?_⟩
        · rw [List.length_cons, List.replicate_succ, ← hbytes]
        · rw [List.length_cons]
          omega
    by_cases hk : k = n
    · rw [if_pos hk] at h
      by_cases hescape : b = escapeByte
      · rw [if_pos hescape] at h
        obtain ⟨hlong, hshort⟩ := ih h
        refine ⟨hlong, fun hlt => ?_⟩
        obtain ⟨-, -, -, hle⟩ := hshort hlt
        omega
      · rw [if_neg hescape] at h
        by_cases hend : b = endByte
        · rw [if_pos hend] at h
          cases h
        · rw [if_neg hend] at h
          by_cases hb : b = 0
          · rw [if_pos hb] at h
            obtain ⟨bytes', hbytes, hrest⟩ := Unescaped.cons_eq_unfinished h
            exact hzero hrest hb hbytes (Nat.le_refl _) (Nat.le_succ k)
          · rw [if_neg hb] at h
            cases h
    · rw [if_neg hk] at h
      obtain ⟨bytes', hbytes, hrest⟩ := Unescaped.cons_eq_unfinished h
      by_cases hb : b = 0
      · rw [if_pos hb] at hrest
        exact hzero hrest hb hbytes (Nat.le_succ k) (Nat.le_refl _)
      · rw [if_neg hb] at hrest
        obtain ⟨hlong, hshort⟩ := ih hrest
        have hle : zeros ≤ bytes'.length := by
          by_contra hlt
          obtain ⟨-, -, -, hle⟩ := hshort (Nat.lt_of_not_le hlt)
          omega
        rw [hbytes]
        constructor
        · intro _
          obtain ⟨front, hfront⟩ := hlong hle
          exact ⟨b :: front, congrArg _ hfront⟩
        · intro hlt
          simp only [List.length_cons] at hlt
          omega

theorem unescape_zeros_le (hk : k ≤ n) (h : unescape n k bs = .unfinished bytes zeros) :
    zeros ≤ n := by
  induction bs generalizing k bytes with
  | nil =>
    cases h
    exact hk
  | cons b bs ih =>
    rw [unescape] at h
    split at h
    · split at h
      · exact ih (Nat.zero_le n) h
      · split at h
        · cases h
        · split at h
          · obtain ⟨bytes', -, hrest⟩ := Unescaped.cons_eq_unfinished h
            exact ih hk hrest
          · cases h
    · obtain ⟨bytes', -, hrest⟩ := Unescaped.cons_eq_unfinished h
      refine ih ?_ hrest
      split
      · omega
      · exact Nat.zero_le n

/-- If an unfinished message has nothing but the zeros at its end, an escape byte can only have
been the first byte. -/
theorem unescape_withheld (hn : 0 < n) (h : unescape n k bs = .unfinished bytes zeros)
    (hle : bytes.length ≤ zeros) :
    bs = bytes ∨ k = n ∧ bs = escapeByte :: List.replicate zeros 0 := by
  induction bs generalizing k bytes with
  | nil =>
    cases h
    exact .inl rfl
  | cons b bs ih =>
    rw [unescape] at h
    by_cases hk : k = n
    · rw [if_pos hk] at h
      by_cases hescape : b = escapeByte
      · rw [if_pos hescape] at h
        obtain ⟨hlong, hshort⟩ := unescape_zeros h
        have hlen : bytes.length = zeros := by
          by_contra hne
          obtain ⟨-, -, -, hzeros⟩ := hshort (by omega)
          omega
        obtain ⟨front, hfront⟩ := hlong (Nat.le_of_eq hlen.symm)
        have hnil : front = [] := by
          have hlens := congrArg List.length hfront
          rw [List.length_append, List.length_replicate, hlen] at hlens
          exact List.eq_nil_of_length_eq_zero (by omega)
        rcases ih h hle with hbs | ⟨hzero, -⟩
        · right
          rw [hescape, hbs, hfront, hnil]
          exact ⟨hk, rfl⟩
        · omega
      · rw [if_neg hescape] at h
        by_cases hend : b = endByte
        · rw [if_pos hend] at h
          cases h
        · rw [if_neg hend] at h
          split at h
          · obtain ⟨bytes', rfl, hrest⟩ := Unescaped.cons_eq_unfinished h
            rw [List.length_cons] at hle
            obtain ⟨-, hbs, -⟩ := (unescape_zeros hrest).2 hle
            exact .inl (congrArg _ hbs)
          · cases h
    · rw [if_neg hk] at h
      obtain ⟨bytes', rfl, hrest⟩ := Unescaped.cons_eq_unfinished h
      rw [List.length_cons] at hle
      obtain ⟨-, hbs, -⟩ := (unescape_zeros hrest).2 hle
      exact .inl (congrArg _ hbs)

/-- A message ends with the zeros of the mark, of which some may have come before. If it has
hardly more bytes than the mark, an escape byte can only have been the first one. -/
theorem unescape_mark (hn : 0 < n) (hk : k ≤ n) (h : unescape n k bs = .finished bytes rest) :
    n + 1 ≤ k + bytes.length ∧
      (bytes.length ≤ n + 1 →
        (∃ m, bytes.length = m + 1 ∧ bs = List.replicate m 0 ++ endByte :: rest) ∨
        k = n ∧ bytes.length = n + 1 ∧
          bs = escapeByte :: (List.replicate n 0 ++ endByte :: rest)) := by
  induction bs generalizing k bytes with
  | nil => cases h
  | cons b bs ih =>
    rw [unescape] at h
    have hzero : ∀ {bytes' k'}, unescape n k' bs = .finished bytes' rest → b = 0 →
        bytes = b :: bytes' → k' ≤ n → k' ≤ k + 1 →
        n + 1 ≤ k + bytes.length ∧
          (bytes.length ≤ n + 1 →
            (∃ m, bytes.length = m + 1 ∧ b :: bs = List.replicate m 0 ++ endByte :: rest) ∨
            k = n ∧ bytes.length = n + 1 ∧
              b :: bs = escapeByte :: (List.replicate n 0 ++ endByte :: rest)) := by
      rintro bytes' k' hrest rfl rfl hk' hle
      obtain ⟨hmark, hshort⟩ := ih hk' hrest
      rw [List.length_cons]
      refine ⟨by omega, fun hlen => .inl ?_⟩
      rcases hshort (by omega) with ⟨m, hm, hbs⟩ | ⟨-, hm, -⟩
      · refine ⟨m + 1, by omega, ?_⟩
        rw [hbs, List.replicate_succ, List.cons_append]
      · omega
    by_cases hkn : k = n
    · rw [if_pos hkn] at h
      by_cases hescape : b = escapeByte
      · rw [if_pos hescape] at h
        obtain ⟨hmark, hshort⟩ := ih (Nat.zero_le n) h
        refine ⟨by omega, fun hlen => .inr ?_⟩
        rcases hshort hlen with ⟨m, hm, hbs⟩ | ⟨hnil, -⟩
        · obtain rfl : m = n := by omega
          exact ⟨hkn, hm, by rw [hescape, hbs]⟩
        · omega
      · rw [if_neg hescape] at h
        by_cases hend : b = endByte
        · rw [if_pos hend] at h
          cases h
          refine ⟨by rw [List.length_singleton]; omega, fun _ => .inl ⟨0, rfl, ?_⟩⟩
          rw [hend]
          rfl
        · rw [if_neg hend] at h
          by_cases hb : b = 0
          · rw [if_pos hb] at h
            obtain ⟨bytes', hbytes, hrest⟩ := Unescaped.cons_eq_finished h
            exact hzero hrest hb hbytes hk (Nat.le_succ k)
          · rw [if_neg hb] at h
            cases h
    · rw [if_neg hkn] at h
      obtain ⟨bytes', hbytes, hrest⟩ := Unescaped.cons_eq_finished h
      by_cases hb : b = 0
      · rw [if_pos hb] at hrest
        exact hzero hrest hb hbytes (by omega) le_rfl
      · rw [if_neg hb] at hrest
        obtain ⟨hmark, -⟩ := ih (Nat.zero_le n) hrest
        rw [hbytes, List.length_cons]
        exact ⟨by omega, fun hlen => by omega⟩

end Unescape

end ZeroStuffing
