import UrBackup.Crypto.Escaping

/-! What a `put` of the receiving side does, if the data is not cut at one of the places where
it goes wrong: it feeds the bytes one by one. -/
namespace UrBackup

open ZeroStuffing

namespace AESGCMDecryption

/-- The copy of the data is made at the first escape byte. -/
def Copied (data bytes dataCopy : List UInt8) (hasCopy : Bool) (escapedZeros : Nat) : Prop :=
  escapedZeros = 0 ∧ dataCopy = [] ∧ hasCopy = false ∧ data = bytes ∨
    0 < escapedZeros ∧ hasCopy = true ∧ dataCopy = bytes

/-- The scan that has unescaped `pre` comes to what the rest says. -/
def Finds (data pre : List UInt8) (f : Find) : Unescaped → Prop
  | .unfinished bytes zeros => f.endMarkerPos = none ∧ f.hasError = false ∧ f.state = zeros ∧
      (pre ++ bytes).length + f.escapedZeros = data.length ∧
      Copied data (pre ++ bytes) f.dataCopy f.hasCopy f.escapedZeros
  | .finished bytes rest => f.endMarkerPos = some (pre ++ bytes).length ∧ f.state = 0 ∧
      data.drop ((pre ++ bytes).length + f.escapedZeros) = rest ∧
      Copied data (pre ++ bytes ++ rest) f.dataCopy f.hasCopy f.escapedZeros
  | .corrupt => f.endMarkerPos = none ∧ f.hasError = true

theorem Finds.cons {data pre : List UInt8} {f : Find} {u : Unescaped} {b : UInt8}
    (h : Finds data (pre ++ [b]) f u) : Finds data pre f (u.cons b) := by
  cases u with
  | unfinished bytes zeros =>
    simp only [Unescaped.cons, Finds, List.append_assoc, List.singleton_append] at h ⊢
    exact h
  | finished bytes rest =>
    simp only [Unescaped.cons, Finds, List.append_assoc, List.singleton_append] at h ⊢
    exact h
  | corrupt => exact h

theorem getD_of_drop {data bs : List UInt8} {i j : Nat} (hdrop : data.drop i = bs) :
    data.getD (i + j) 0 = bs.getD j 0 := by
  rw [← hdrop, List.getD_eq_getElem?_getD, List.getD_eq_getElem?_getD, List.getElem?_drop]

theorem unescape_skip {b₀ b₁ b₂ b₃ : UInt8} {bs : List UInt8} (h : b₃ ≠ 0) :
    unescape endMarkerZeros 0 (b₀ :: b₁ :: b₂ :: b₃ :: bs) =
      ((((unescape endMarkerZeros 0 bs).cons b₃).cons b₂).cons b₁).cons b₀ := by
  by_cases h₀ : b₀ = 0 <;> by_cases h₁ : b₁ = 0 <;> by_cases h₂ : b₂ = 0 <;>
    simp [unescape, endMarkerZeros, h, h₀, h₁, h₂]

theorem findLoop_finds {data pre rest dataCopy : List UInt8} {k escapedZeros : Nat}
    {hasCopy : Bool} (hk : k ≤ endMarkerZeros) (hdrop : data.drop (pre.length + escapedZeros) = rest)
    (hcopy : Copied data (pre ++ rest) dataCopy hasCopy escapedZeros)
    (hlen : pre.length + escapedZeros + rest.length = data.length) :
    Finds data pre (findLoop data (pre.length + escapedZeros) k dataCopy hasCopy escapedZeros)
      (unescape endMarkerZeros k rest) := by
  induction hm : rest.length using Nat.strongRecOn generalizing k pre rest dataCopy hasCopy
    escapedZeros with
  | ind m ih =>
    rw [findLoop]
    cases rest with
    | nil =>
      rw [if_neg (by simp only [List.length_nil] at hlen; omega)]
      refine ⟨rfl, rfl, rfl, ?_, hcopy⟩
      rw [List.append_nil]
      exact hlen
    | cons b bs =>
      have hget : data.getD (pre.length + escapedZeros) 0 = b := @getD_of_drop _ _ _ 0 hdrop
      have hi : pre.length + escapedZeros < data.length := by
        simp only [List.length_cons] at hlen
        omega
      simp only [if_pos hi, hget]
      -- Some bytes further, which are kept.
      have hnext : ∀ (new rest' : List UInt8) (k' : Nat), b :: bs = new ++ rest' →
          0 < new.length → k' ≤ endMarkerZeros →
          Finds data (pre ++ new) (findLoop data (pre.length + escapedZeros + new.length) k'
            dataCopy hasCopy escapedZeros) (unescape endMarkerZeros k' rest') := by
        intro new rest' k' hnew hpos hk'
        rw [hnew] at hdrop hcopy hlen hm
        have hpre : pre.length + escapedZeros + new.length =
            (pre ++ new).length + escapedZeros := by
          rw [List.length_append]
          omega
        rw [List.length_append] at hlen hm
        rw [hpre]
        apply ih rest'.length (by omega) hk' _ _ _ rfl
        · rw [← hpre, ← List.drop_drop, hdrop, List.drop_left]
        · rw [List.append_assoc]
          exact hcopy
        · omega
      split
      · rename_i hskip
        obtain ⟨rfl, hfour, hne⟩ := hskip
        have hfour' : 4 ≤ (b :: bs).length := by
          simp only [endMarkerZeros] at hfour
          omega
        obtain ⟨b₀, b₁, b₂, b₃, bs', hbs⟩ := AESGCMEncryption.exists_four hfour'
        have hb₃ : b₃ ≠ 0 := by
          have hget₃ := @getD_of_drop _ _ _ 3 hdrop
          rw [hbs] at hget₃
          rw [show pre.length + escapedZeros + endMarkerZeros - 1 =
            pre.length + escapedZeros + 3 from rfl, hget₃] at hne
          exact hne
        have hfinds := hnext [b₀, b₁, b₂, b₃] bs' 0 hbs (Nat.succ_pos _) hk
        rw [hbs, unescape_skip hb₃]
        iterate 4 apply Finds.cons
        simp only [List.append_assoc, List.singleton_append]
        exact hfinds
      · have hbyte : ∀ k', k' ≤ endMarkerZeros →
            Finds data pre (findLoop data (pre.length + escapedZeros + 1) k' dataCopy hasCopy
              escapedZeros) ((unescape endMarkerZeros k' bs).cons b) :=
          fun k' hk' => (hnext [b] bs k' rfl Nat.one_pos hk').cons
        split
        · rename_i hskip hfull
          rw [unescape, if_pos hfull]
          by_cases hescape : b = escapeByte
          · rw [if_pos hescape, if_pos hescape, Nat.add_sub_cancel]
            have hcopied : (if dataCopy.isEmpty then data else dataCopy) = pre ++ b :: bs := by
              rcases hcopy with ⟨-, hempty, -, hdata⟩ | ⟨-, -, hfullcopy⟩
              · rw [hempty, hdata]
                rfl
              · rw [hfullcopy]
                simp
            rw [hcopied, List.eraseIdx_append_of_length_le (Nat.le_refl _), Nat.sub_self,
              List.eraseIdx_cons_zero, Nat.add_assoc]
            simp only [List.length_cons] at hlen hm
            apply ih bs.length (by omega) (Nat.zero_le _) _ _ _ rfl
            · rw [← Nat.add_assoc, ← List.drop_drop, hdrop]
              rfl
            · exact .inr ⟨Nat.succ_pos _, rfl, rfl⟩
            · omega
          · rw [if_neg hescape, if_neg hescape]
            by_cases hend : b = endByte
            · rw [if_pos hend, if_pos hend, if_pos (by omega)]
              have hpos : pre.length + escapedZeros + 1 - escapedZeros = (pre ++ [b]).length := by
                rw [List.length_append, List.length_singleton]
                omega
              refine ⟨congrArg some hpos, rfl, ?_, ?_⟩
              · have hdrop' : (pre ++ [b]).length + escapedZeros =
                    pre.length + escapedZeros + 1 := by
                  rw [List.length_append, List.length_singleton]
                  omega
                simp only [hdrop']
                rw [← List.drop_drop, hdrop]
                rfl
              · rw [List.append_assoc]
                exact hcopy
            · rw [if_neg hend, if_neg hend]
              by_cases hb : b = 0
              · rw [if_neg (not_not.mpr hb), if_pos hb]
                exact hbyte k hk
              · rw [if_pos hb, if_neg hb]
                exact ⟨rfl, rfl⟩
        · rename_i hskip hfull
          rw [unescape, if_neg hfull]
          split
          · exact hbyte (k + 1) (by omega)
          · exact hbyte 0 (Nat.zero_le _)

/-- The places where a `put` goes wrong if the data is cut there: behind `zeros` zeros that are
kept back comes an escape byte with nothing but zeros to be kept back, or the zeros of the end
marker, the byte behind them included, are all of the data but not all of the zeros. -/
def CutBadly (zeros : Nat) (data : List UInt8) : Prop :=
  (zeros = endMarkerZeros ∧ ∃ m ≤ endMarkerZeros, data = escapeByte :: List.replicate m 0) ∨
  (∃ m ≤ endMarkerZeros, endMarkerZeros < zeros + m ∧
    List.replicate m 0 ++ [endByte] <+: data) ∨
  zeros = endMarkerZeros ∧
    escapeByte :: (List.replicate endMarkerZeros 0 ++ [endByte]) <+: data

theorem not_cutBadly_zero (data : List UInt8) : ¬ CutBadly 0 data := by
  rintro (⟨h, -⟩ | ⟨m, hm, hlt, -⟩ | ⟨h, -⟩)
  · cases h
  · omega
  · cases h

def deliver (g : GCM) (st : List UInt8 × List (List UInt8)) (bytes : List UInt8) :
    Option (List UInt8 × List (List UInt8)) :=
  (g.verify st.1 bytes).map fun msg => (incrementCounterByOne st.1, st.2 ++ [msg])

def receiver (d : AESGCMDecryption) : Receiver (List UInt8 × List (List UInt8)) :=
  ⟨d.input ++ List.replicate d.endMarkerState 0, d.endMarkerState, (d.ivBuffer, d.output)⟩

section Put

variable {g : GCM} {d : AESGCMDecryption} {data bytes rest : List UInt8} {f : Find} {zeros : Nat}

theorem putOpen_receiver (hk : d.endMarkerState ≤ endMarkerZeros)
    (hcut : ¬ CutBadly d.endMarkerState data)
    (hescape : unescape endMarkerZeros d.endMarkerState data = .unfinished bytes zeros)
    (hfinds : Finds data [] f (.unfinished bytes zeros)) :
    (d.putOpen data f).receiver =
      { d.receiver with pending := d.receiver.pending ++ bytes, zeros } := by
  obtain ⟨-, -, hstate, hlen, hcopy⟩ := hfinds
  rw [List.nil_append] at hlen hcopy
  obtain ⟨hlong, hshort⟩ := unescape_zeros hescape
  have hsize : data.length - f.escapedZeros = bytes.length := by omega
  unfold putOpen receiver
  simp only [hstate, hsize, Receiver.mk.injEq, and_true]
  by_cases hle : zeros ≤ bytes.length
  · -- The zeros that are kept back now are the last ones of the data.
    obtain ⟨front, hfront⟩ := hlong hle
    have hfrontlen : bytes.length = front.length + zeros := by
      rw [hfront, List.length_append, List.length_replicate]
    have hdata : (if 0 < zeros then
        if zeros ≤ bytes.length then (data.length - zeros, d.endMarkerState)
        else if zeros - d.endMarkerState ≤ bytes.length then
          (data.length - (zeros - d.endMarkerState), 0)
        else (data.length, d.endMarkerState)
        else (data.length, d.endMarkerState)) = (data.length - zeros, d.endMarkerState) := by
      rw [if_pos hle]
      split
      · rfl
      · rw [show zeros = 0 by omega]
        rfl
    have hkept : data.length - zeros - f.escapedZeros = front.length := by omega
    have hchosen : (if f.hasCopy = true ∧ 0 < front.length then f.dataCopy.take front.length
        else if 0 < data.length - zeros then data.take (data.length - zeros) else []) = front := by
      rcases hcopy with ⟨hzero, -, hno, hdata⟩ | ⟨hpos, hyes, hcopied⟩
      · rw [hno, if_neg fun h => Bool.false_ne_true h.1, hdata, hfrontlen, Nat.add_sub_cancel]
        split
        · rw [hfront, List.take_left]
        · exact (List.eq_nil_of_length_eq_zero (by omega)).symm
      · by_cases hempty : 0 < front.length
        · rw [if_pos ⟨hyes, hempty⟩, hcopied, hfront, List.take_left]
        · exfalso
          rcases unescape_withheld (by decide) hescape (by omega) with hsame | ⟨hfour, hdata⟩
          · rw [hsame] at hlen
            omega
          · exact hcut (.inl ⟨hfour, zeros, unescape_zeros_le hk hescape, hdata⟩)
    simp only [hdata, hkept, hchosen]
    rw [hfront]
    simp only [List.append_assoc]
  · -- All of the data is kept back, and some of the zeros from before may go on.
    have hlt := Nat.lt_of_not_le hle
    obtain ⟨hbytes, hdata, hge, hsum⟩ := hshort hlt
    have hpair : (if 0 < zeros then
        if zeros ≤ bytes.length then (data.length - zeros, d.endMarkerState)
        else if zeros - d.endMarkerState ≤ bytes.length then
          (data.length - (zeros - d.endMarkerState), 0)
        else (data.length, d.endMarkerState)
        else (data.length, d.endMarkerState)) = (data.length - (zeros - d.endMarkerState), 0) := by
      rw [if_pos (by omega), if_neg hle, if_pos (by omega)]
    have hno : f.hasCopy = false := by
      rcases hcopy with ⟨-, -, hno, -⟩ | ⟨hpos, -, -⟩
      · exact hno
      · rw [hdata] at hlen
        omega
    simp only [hpair, hno, Bool.false_eq_true, false_and, if_false, List.replicate_zero,
      List.append_nil]
    have hchosen : (if 0 < data.length - (zeros - d.endMarkerState) then
        data.take (data.length - (zeros - d.endMarkerState)) else []) =
        List.replicate (bytes.length - (zeros - d.endMarkerState)) 0 := by
      rw [hdata]
      split
      · conv_lhs => rw [hbytes]
        rw [List.take_replicate, List.length_replicate]
        congr 1
        omega
      · rename_i hnone
        rw [show bytes.length - (zeros - d.endMarkerState) = 0 by omega]
        rfl
    have hmove : bytes.length - (zeros - d.endMarkerState) + zeros =
        d.endMarkerState + bytes.length := by omega
    rw [hchosen, List.append_assoc, List.append_assoc, List.replicate_append_replicate, hmove,
      ← List.replicate_append_replicate, ← hbytes]

theorem putClosed_receiver (hk : d.endMarkerState ≤ endMarkerZeros)
    (hcut : ¬ CutBadly d.endMarkerState data)
    (hescape : unescape endMarkerZeros d.endMarkerState data = .finished bytes rest)
    (hfinds : Finds data [] f (.finished bytes rest)) :
    d.putClosed data f bytes.length =
      { d with
        endMarkerState := 0
        input := (d.receiver.pending ++ bytes).take
          ((d.receiver.pending ++ bytes).length - (endMarkerZeros + 1)) } := by
  obtain ⟨-, hstate, -, hcopy⟩ := hfinds
  rw [List.nil_append] at hcopy
  obtain ⟨hmark, hshort⟩ := unescape_mark (by decide) hk hescape
  have hpending : (d.receiver.pending ++ bytes).length =
      d.input.length + d.endMarkerState + bytes.length := by
    rw [receiver, List.length_append, List.length_append, List.length_replicate]
  unfold putClosed
  rw [hstate, hpending]
  by_cases hlong : endMarkerZeros + 1 < bytes.length
  · have hsource : (if f.hasCopy = true then f.dataCopy else data) = bytes ++ rest := by
      rcases hcopy with ⟨-, -, hno, hdata⟩ | ⟨-, hyes, hcopied⟩
      · rw [hno]
        exact hdata
      · rw [hyes]
        exact hcopied
    have hsub : d.input.length + d.endMarkerState + bytes.length - (endMarkerZeros + 1) =
        d.receiver.pending.length + (bytes.length - endMarkerZeros - 1) := by
      rw [receiver, List.length_append, List.length_replicate]
      omega
    rw [if_pos hlong, hsource, hsub, List.take_length_add_append,
      List.take_append_of_le_length (by omega), receiver, List.append_assoc]
  · have hsum : d.endMarkerState + bytes.length = endMarkerZeros + 1 := by
      by_contra hne
      apply hcut
      rcases hshort (Nat.le_of_not_lt hlong) with ⟨m, hm, hdata⟩ | ⟨hfour, -, hdata⟩
      · refine .inr (.inl ⟨m, by omega, by omega, rest, ?_⟩)
        rw [hdata, List.append_assoc]
        rfl
      · refine .inr (.inr ⟨hfour, rest, ?_⟩)
        rw [hdata, List.cons_append, List.append_assoc]
        rfl
    have hsub : d.input.length + d.endMarkerState + bytes.length - (endMarkerZeros + 1) =
        d.input.length := by omega
    rw [if_neg hlong, hsub, receiver, List.append_assoc]
    simp only [List.append_nil, List.take_left]

theorem messageEnd_receiver (hk : d.endMarkerState = 0) :
    (d.messageEnd g).map receiver =
      (deliver g (d.ivBuffer, d.output) d.input).map fun st => ⟨[], 0, st⟩ := by
  unfold messageEnd deliver
  cases g.verify d.ivBuffer d.input with
  | none => rfl
  | some msg =>
    simp only [Option.map_some, receiver, hk]
    rfl

theorem putData_receiver (hk : d.endMarkerState ≤ endMarkerZeros)
    (hcut : ¬ CutBadly d.endMarkerState data) :
    (d.putData g data).map receiver = d.receiver.feed endMarkerZeros (deliver g) data := by
  induction hm : data.length using Nat.strongRecOn generalizing d data with
  | ind m ih =>
    have hfinds : Finds data [] (d.findAndUnescapeEndMarker data)
        (unescape endMarkerZeros d.endMarkerState data) :=
      @findLoop_finds data [] data [] d.endMarkerState 0 false hk rfl (.inl ⟨rfl, rfl, rfl, rfl⟩)
        (by simp)
    have hreceiver : d.receiver =
        ⟨d.receiver.pending, d.endMarkerState, (d.ivBuffer, d.output)⟩ := rfl
    rw [hreceiver, feed_unescape, putData]
    generalize d.findAndUnescapeEndMarker data = f at hfinds
    cases hescape : unescape endMarkerZeros d.endMarkerState data with
    | unfinished bytes zeros =>
      rw [hescape] at hfinds
      split
      · rw [if_neg (by rw [hfinds.2.1]; exact Bool.false_ne_true), Option.map_some,
          putOpen_receiver hk hcut hescape hfinds]
        rfl
      · rename_i pos hpos
        rw [hfinds.1] at hpos
        cases hpos
    | finished bytes rest =>
      rw [hescape] at hfinds
      have hlen : 0 < bytes.length := by
        have hmark := (unescape_mark (by decide) hk hescape).1
        omega
      split
      · rename_i hnone
        rw [hfinds.1] at hnone
        cases hnone
      · rename_i pos hpos
        rw [hfinds.1, Option.some.injEq, List.nil_append] at hpos
        obtain rfl := hpos
        rw [putClosed_receiver hk hcut hescape hfinds]
        obtain ⟨-, -, hrest, -⟩ := hfinds
        rw [List.nil_append] at hrest
        simp only
        generalize (d.receiver.pending ++ bytes).take
          ((d.receiver.pending ++ bytes).length - (endMarkerZeros + 1)) = msg
        have hend := @messageEnd_receiver g { d with endMarkerState := 0, input := msg } rfl
        cases hverify : messageEnd g { d with endMarkerState := 0, input := msg } with
        | none =>
          rw [hverify, Option.map_none, eq_comm, Option.map_eq_none_iff] at hend
          rw [hend]
          rfl
        | some d' =>
          rw [hverify, Option.map_some, eq_comm, Option.map_eq_some_iff] at hend
          obtain ⟨o, hdeliver, hd'⟩ := hend
          have hstate : d'.endMarkerState = 0 := (congrArg Receiver.zeros hd').symm
          rw [hdeliver, Option.bind_some, Option.bind_some, hd']
          split
          · rw [hrest]
            refine ih rest.length ?_ (by rw [hstate]; exact Nat.zero_le _)
              (by rw [hstate]; exact not_cutBadly_zero rest) rfl
            rw [← hrest, List.length_drop]
            omega
          · rename_i hdone
            rw [← hrest, List.drop_eq_nil_of_le (by omega)]
            rfl
    | corrupt =>
      rw [hescape] at hfinds
      split
      · rw [if_pos hfinds.2]
        rfl
      · rename_i pos hpos
        rw [hfinds.1] at hpos
        cases hpos

end Put

end AESGCMDecryption

end UrBackup
