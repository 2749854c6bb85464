import UrBackup.Images.ImageReads
import UrBackup.Patch.PatchFile

/-! The messages of a client in the stream: the server acts on those that have arrived as a whole,
one after the other. -/
namespace UrBackup

open ByteOrder Feeding

def imagePing : List UInt8 := littleEndian 8 (2 ^ 64 - 125)

def ImageAction.encode : ImageAction → List UInt8
  | .block n data => littleEndian 8 n ++ data
  | .checksum hblock dig => littleEndian 8 (2 ^ 64 - 126) ++ (littleEndian 8 hblock.toNat ++ dig)
  | .finish => littleEndian 8 (2 ^ 64 - 123)

/-- A stream with these messages and any pings. -/
inductive Encoded : List ImageAction → List UInt8 → Prop where
  | nil : Encoded [] []
  | ping {acts bytes} (rest : Encoded acts bytes) : Encoded acts (imagePing ++ bytes)
  | cons {acts bytes} (a : ImageAction) (rest : Encoded acts bytes) :
      Encoded (a :: acts) (a.encode ++ bytes)

namespace ImageCore

/-- The messages are all acted on, and before and after each of them something holds. -/
inductive Runs {κ : Type*} (core : ImageCore κ) (I : κ → Prop) : κ → List ImageAction → κ → Prop where
  | nil {k} (h : I k) : Runs core I k [] k
  | cons {k k' k'' a acts} (h : I k) (hact : core.act k a = .goOn k')
      (rest : Runs core I k' acts k'') : Runs core I k (a :: acts) k''

section Runs

variable {κ : Type*} {core : ImageCore κ} {I : κ → Prop} {k k' k'' : κ}
  {acts acts' : List ImageAction}

theorem Runs.holds (h : core.Runs I k acts k') : I k := by
  cases h with
  | nil h => exact h
  | cons h _ _ => exact h

theorem Runs.append (h : core.Runs I k acts k') (h' : core.Runs I k' acts' k'') :
    core.Runs I k (acts ++ acts') k'' := by
  induction h with
  | nil _ => exact h'
  | cons hI hact _ ih => exact .cons hI hact (ih h')

end Runs

end ImageCore

namespace ImageSession

section Messages

variable {κ : Type*} {req : ImageRequest} {core : ImageCore κ}

/-- The server has read the first packet and the bitmap. -/
structure Open (blocksize : Nat) (totalblocks : Int) (k : κ) (s : ImageSession κ) : Prop where
  transferState : s.transferState = .image
  blocksize : s.blocksize = blocksize
  totalblocks : s.totalblocks = totalblocks
  core : s.core = some k

/-- A message of a volume. -/
def Sendable (blocksize : Nat) (totalblocks : Int) : ImageAction → Prop
  | .block n data => data.length = blocksize ∧ (n : Int) ≤ totalblocks ∧ n < 2 ^ 63
  | .checksum hblock dig => 0 ≤ hblock ∧ hblock < 2 ^ 63 ∧ dig.length = shaSize
  | .finish => False

variable {blocksize : Nat} {totalblocks : Int} {k k' : κ} {s : ImageSession κ}

theorem number_append {x : Nat} (hx : x < 2 ^ 63) (data : List UInt8) :
    int64 ((littleEndian 8 x ++ data).take 8) = x := by
  rw [List.take_left' (littleEndian_length 8 x)]
  exact int64_littleEndian hx

theorem eight_le (x : Nat) (data : List UInt8) : ¬ (littleEndian 8 x ++ data).length < 8 := by
  rw [List.length_append, littleEndian_length]
  omega

theorem message_ping (s : ImageSession κ) (rest : List UInt8) :
    s.message core (imagePing ++ rest) = .take 8 s := by
  have hnumber : int64 ((imagePing ++ rest).take 8) = -125 := by
    rw [imagePing, List.take_left' (littleEndian_length 8 _)]
    decide
  have hlong : ¬ (imagePing ++ rest).length < 8 := eight_le _ _
  unfold message
  rw [if_neg hlong, hnumber]
  rfl

theorem message_finish (s : ImageSession κ) (rest : List UInt8) :
    s.message core (ImageAction.finish.encode ++ rest) = .stop (s.finish core) := by
  have hnumber : int64 ((ImageAction.finish.encode ++ rest).take 8) = -123 := by
    rw [ImageAction.encode, List.take_left' (littleEndian_length 8 _)]
    decide
  have hlong : ¬ (ImageAction.finish.encode ++ rest).length < 8 := eight_le _ _
  unfold message
  rw [if_neg hlong, hnumber]
  rfl

theorem message_block {n : Nat} (hn : n < 2 ^ 63) (htotal : (n : Int) ≤ s.totalblocks)
    (rest : List UInt8) : s.message core (littleEndian 8 n ++ rest) =
      .take 8 { s with currblock := n, blockdata := [], blockleft := s.blocksize } := by
  unfold message
  rw [if_neg (eight_le _ _), number_append hn]
  dsimp only
  rw [if_neg (by omega), if_neg (by omega), if_neg (by omega), if_neg (by omega),
    if_neg (by omega), if_neg (by omega), Int.toNat_natCast]

theorem message_checksum {hblock : Int} {dig rest : List UInt8}
    (h : Sendable blocksize totalblocks (.checksum hblock dig)) :
    s.message core ((ImageAction.checksum hblock dig).encode ++ rest) =
      if (s.act core (.checksum hblock dig)).2 then .stop (s.act core (.checksum hblock dig)).1
      else .take (16 + shaSize) (s.act core (.checksum hblock dig)).1 := by
  obtain ⟨hpos, hlt, hdig⟩ := h
  have hparts : (ImageAction.checksum hblock dig).encode ++ rest =
      littleEndian 8 (2 ^ 64 - 126) ++ (littleEndian 8 hblock.toNat ++ (dig ++ rest)) := by
    rw [ImageAction.encode, List.append_assoc, List.append_assoc]
  have hnumber : int64 ((littleEndian 8 (2 ^ 64 - 126) ++
      (littleEndian 8 hblock.toNat ++ (dig ++ rest))).take 8) = -126 := by
    rw [List.take_left' (littleEndian_length 8 _)]
    decide
  have hblocks : int64 (bytesAt (littleEndian 8 (2 ^ 64 - 126) ++
      (littleEndian 8 hblock.toNat ++ (dig ++ rest))) 8 8) = hblock := by
    rw [bytesAt, List.drop_left' (littleEndian_length 8 _), number_append (by omega)]
    omega
  have hsum : bytesAt (littleEndian 8 (2 ^ 64 - 126) ++
      (littleEndian 8 hblock.toNat ++ (dig ++ rest))) 16 shaSize = dig := by
    rw [bytesAt, ← List.append_assoc, List.drop_left', List.take_left' hdig]
    rw [List.length_append, littleEndian_length, littleEndian_length]
  have hlong : ¬ (littleEndian 8 (2 ^ 64 - 126) ++
      (littleEndian 8 hblock.toNat ++ (dig ++ rest))).length < 16 + shaSize := by
    rw [List.length_append, List.length_append, List.length_append, littleEndian_length,
      littleEndian_length, hdig]
    omega
  rw [hparts]
  unfold message
  rw [if_neg (eight_le _ _), hnumber]
  dsimp only
  rw [if_neg (by decide), if_neg (by decide), if_neg (by decide), if_pos rfl, if_neg hlong,
    hblocks, hsum]

theorem act_goOn {a : ImageAction} (h : s.core = some k) (hact : core.act k a = .goOn k') :
    s.act core a = ({ s with acted := s.acted ++ [a], core := some k' }, false) := by
  unfold act
  rw [h]
  dsimp only
  rw [hact]

theorem drain_ping (h : s.transferState = .image) (hleft : s.blockleft = 0) (rest : List UInt8) :
    drain (next req core) s (imagePing ++ rest) = drain (next req core) s rest := by
  have hnext : next req core s (imagePing ++ rest) = .take 8 s := by
    rw [next_message h hleft, message_ping]
  have hbound : 0 < 8 ∧ 8 ≤ (imagePing ++ rest).length := by
    rw [List.length_append, imagePing, littleEndian_length]
    omega
  rw [drain_take hnext hbound, imagePing, List.drop_left' (littleEndian_length 8 _)]

theorem drain_message (h : Open blocksize totalblocks k s) (hleft : s.blockleft = 0)
    (hpos : 0 < blocksize) {a : ImageAction} (ha : Sendable blocksize totalblocks a)
    (hact : core.act k a = .goOn k') :
    ∃ s', Open blocksize totalblocks k' s' ∧ s'.blockleft = 0 ∧
      ∀ rest, drain (next req core) s (a.encode ++ rest) = drain (next req core) s' rest := by
  cases a with
  | finish => exact ha.elim
  | checksum hblock dig =>
    have hgo := act_goOn h.core hact
    refine ⟨{ s with acted := s.acted ++ [.checksum hblock dig], core := some k' },
      ⟨h.transferState, h.blocksize, h.totalblocks, rfl⟩, hleft, fun rest => ?_⟩
    have hnext : next req core s ((ImageAction.checksum hblock dig).encode ++ rest) =
        .take (16 + shaSize)
          { s with acted := s.acted ++ [.checksum hblock dig], core := some k' } := by
      rw [next_message h.transferState hleft, message_checksum ha, hgo]
      rfl
    have hlength : (ImageAction.checksum hblock dig).encode.length = 16 + shaSize := by
      rw [ImageAction.encode, List.length_append, List.length_append, littleEndian_length,
        littleEndian_length, ha.2.2, ← Nat.add_assoc]
    rw [drain_take hnext (by rw [List.length_append, hlength]; omega), List.drop_left' hlength]
  | block n data =>
    obtain ⟨hdata, htotal, hn⟩ := ha
    refine ⟨{ s with
        currblock := n, blockdata := [], blockleft := 0
        acted := s.acted ++ [.block n data], core := some k' },
      ⟨h.transferState, h.blocksize, h.totalblocks, rfl⟩, rfl, fun rest => ?_⟩
    have hparts : (ImageAction.block n data).encode ++ rest = littleEndian 8 n ++ (data ++ rest) :=
      List.append_assoc _ _ _
    have hnumber : next req core s (littleEndian 8 n ++ (data ++ rest)) =
        .take 8 { s with currblock := n, blockdata := [], blockleft := blocksize } := by
      rw [next_message h.transferState hleft, message_block hn (h.totalblocks ▸ htotal),
        h.blocksize]
    have hfull : ({ s with currblock := n, blockdata := [], blockleft := blocksize } :
        ImageSession κ).writeBlock core data = ({ s with
          currblock := n, blockdata := [], blockleft := 0
          acted := s.acted ++ [.block n data], core := some k' }, false) :=
      @act_goOn _ core k k' { s with currblock := n, blockdata := [], blockleft := 0 }
        (.block n data) h.core hact
    have hrest : next req core { s with currblock := n, blockdata := [], blockleft := blocksize }
        (data ++ rest) = .take blocksize { s with
          currblock := n, blockdata := [], blockleft := 0
          acted := s.acted ++ [.block n data], core := some k' } := by
      rw [@next_block _ _ _ { s with currblock := n, blockdata := [], blockleft := blocksize }
        h.transferState (Nat.ne_of_gt hpos), collect_of_le hpos, List.take_left' hdata, hfull]
      · rfl
      · rw [List.length_append, hdata]
        exact Nat.le_add_right _ _
    rw [hparts, drain_take hnumber, List.drop_left' (littleEndian_length 8 _), drain_take hrest,
      List.drop_left' hdata]
    · rw [List.length_append, hdata]
      omega
    · rw [List.length_append, littleEndian_length]
      omega

end Messages

section Cuts

variable {κ : Type*} {req : ImageRequest} {core : ImageCore κ} {blocksize : Nat}
  {totalblocks : Int} {k k' : κ} {s : ImageSession κ} {pre post : List UInt8}

theorem drain_short (h : s.transferState = .image) (hleft : s.blockleft = 0)
    (hshort : pre.length < 8) : drain (next req core) s pre = ⟨s, pre, false⟩ := by
  apply drain_wait
  rw [next_message h hleft]
  unfold message
  exact if_pos hshort

theorem split_number {x : Nat} {data : List UInt8} (h : pre ++ post = littleEndian 8 x ++ data)
    (hlong : ¬ pre.length < 8) : ∃ part, pre = littleEndian 8 x ++ part ∧ data = part ++ post := by
  rcases List.append_eq_append_iff.mp h with ⟨part, hnumber, hpost⟩ | ⟨part, hpre, hdata⟩
  · have hlength := congrArg List.length hnumber
    rw [List.length_append, littleEndian_length] at hlength
    have hnil : part = [] := List.eq_nil_of_length_eq_zero (by omega)
    subst hnil
    rw [List.append_nil] at hnumber
    exact ⟨[], by rw [List.append_nil, hnumber], hpost.symm⟩
  · exact ⟨part, hpre, hdata⟩

theorem split_message {bytes msg : List UInt8} (h : pre ++ post = msg ++ bytes) :
    (∃ part, part ≠ [] ∧ pre ++ part = msg ∧ post = part ++ bytes) ∨
      ∃ part, pre = msg ++ part ∧ part ++ post = bytes := by
  rcases List.append_eq_append_iff.mp h with ⟨part, hmsg, hpost⟩ | ⟨part, hpre, hbytes⟩
  · by_cases hnil : part = []
    · subst hnil
      rw [List.append_nil] at hmsg
      exact .inr ⟨[], by rw [List.append_nil, hmsg], hpost⟩
    · exact .inl ⟨part, hnil, hmsg.symm, hpost⟩
  · exact .inr ⟨part, hpre, hbytes.symm⟩

theorem drain_part (h : Open blocksize totalblocks k s) (hleft : s.blockleft = blocksize)
    (hlt : pre.length < blocksize) : (drain (next req core) s pre).stopped = false ∧
      Open blocksize totalblocks k (drain (next req core) s pre).state := by
  have hblock (data : List UInt8) := @next_block _ req core s h.transferState (by omega) data
  by_cases hnil : pre = []
  · have hwait : next req core s pre = .wait := by
      rw [hblock, collect, if_pos (.inl hnil)]
    rw [drain_wait hwait]
    exact ⟨rfl, h⟩
  · have hfill : next req core s pre = .take pre.length (s.fillBlock pre) := by
      rw [hblock, collect_of_lt hnil (by omega)]
    have hwait : next req core (s.fillBlock pre) [] = .wait := by
      rw [next_fillBlock h.transferState (by omega), collect, if_pos (.inl rfl)]
    rw [drain_take hfill ⟨List.length_pos_of_ne_nil hnil, le_rfl⟩, List.drop_length,
      drain_wait hwait]
    exact ⟨rfl, h.transferState, h.blocksize, h.totalblocks, h.core⟩

theorem drain_cut (h : Open blocksize totalblocks k s) (hleft : s.blockleft = 0) {a : ImageAction}
    (ha : Sendable blocksize totalblocks a ∨ a = .finish) (hpre : pre ++ post = a.encode)
    (hpost : post ≠ []) : (drain (next req core) s pre).stopped = false ∧
      Open blocksize totalblocks k (drain (next req core) s pre).state := by
  have hrest := List.length_pos_of_ne_nil hpost
  by_cases hshort : pre.length < 8
  · rw [drain_short h.transferState hleft hshort]
    exact ⟨rfl, h⟩
  cases a with
  | finish =>
    have hlength := congrArg List.length hpre
    rw [List.length_append, ImageAction.encode, littleEndian_length] at hlength
    omega
  | checksum hblock dig =>
    have hdig := (ha.resolve_right nofun).2.2
    obtain ⟨part, rfl, hpart⟩ := split_number hpre hshort
    have hnumber : int64 ((littleEndian 8 (2 ^ 64 - 126) ++ part).take 8) = -126 := by
      rw [List.take_left' (littleEndian_length 8 _)]
      decide
    have hwait : next req core s (littleEndian 8 (2 ^ 64 - 126) ++ part) = .wait := by
      rw [next_message h.transferState hleft]
      unfold message
      rw [if_neg (eight_le _ _), hnumber]
      dsimp only
      rw [if_neg (by decide), if_neg (by decide), if_neg (by decide), if_pos rfl, if_pos]
      have hlength := congrArg List.length hpart
      rw [List.length_append, List.length_append, littleEndian_length, hdig] at hlength
      rw [List.length_append, littleEndian_length]
      omega
    rw [drain_wait hwait]
    exact ⟨rfl, h⟩
  | block n data =>
    obtain ⟨hdata, htotal, hn⟩ := ha.resolve_right nofun
    obtain ⟨part, rfl, hpart⟩ := split_number hpre hshort
    have hnumber : next req core s (littleEndian 8 n ++ part) =
        .take 8 { s with currblock := n, blockdata := [], blockleft := blocksize } := by
      rw [next_message h.transferState hleft, message_block hn (h.totalblocks ▸ htotal),
        h.blocksize]
    have hbound : 0 < 8 ∧ 8 ≤ (littleEndian 8 n ++ part).length :=
      ⟨by decide, Nat.not_lt.mp hshort⟩
    rw [drain_take hnumber hbound, List.drop_left' (littleEndian_length 8 _)]
    refine @drain_part _ req core blocksize totalblocks k
      { s with currblock := n, blockdata := [], blockleft := blocksize } part
      ⟨h.transferState, h.blocksize, h.totalblocks, h.core⟩ rfl ?_
    rw [hpart, List.length_append] at hdata
    omega

/-- What came of a stream, up to where it is cut: the server has acted on the messages that have
arrived, or on all of them. -/
theorem drain_stream {I : κ → Prop} {acts msgs : List ImageAction} {bytes : List UInt8} {kf : κ}
    (henc : Encoded acts bytes) (hacts : acts = msgs ++ [.finish]) (hrun : core.Runs I k msgs k')
    (hfinish : core.act k' .finish = .goOn kf)
    (hsendable : ∀ a ∈ msgs, Sendable blocksize totalblocks a) (hpos : 0 < blocksize)
    (h : Open blocksize totalblocks k s) (hleft : s.blockleft = 0) (hcut : pre ++ post = bytes) :
    (post ≠ [] ∧ (drain (next req core) s pre).stopped = false ∧
        ∃ k'', I k'' ∧ Open blocksize totalblocks k'' (drain (next req core) s pre).state) ∨
      ((drain (next req core) s pre).stopped = true ∧
        (drain (next req core) s pre).state.outcome = some .finished ∧
        (drain (next req core) s pre).state.core = some kf) := by
  induction henc generalizing msgs k s pre with
  | nil => exact absurd hacts.symm (List.append_ne_nil_of_right_ne_nil _ (List.cons_ne_nil _ _))
  | @ping acts bytes rest ih =>
    rcases split_message hcut with ⟨part, hpart, hping, rfl⟩ | ⟨part, rfl, hrest⟩
    · left
      have hshort : pre.length < 8 := by
        have hlength := congrArg List.length hping
        rw [List.length_append, imagePing, littleEndian_length] at hlength
        have hpartlength := List.length_pos_of_ne_nil hpart
        omega
      rw [drain_short h.transferState hleft hshort]
      exact ⟨List.append_ne_nil_of_left_ne_nil hpart _, rfl, k, hrun.holds, h⟩
    · rw [drain_ping h.transferState hleft]
      exact ih hacts hrun hsendable h hleft hrest
  | @cons acts bytes a rest ih =>
    have ha : Sendable blocksize totalblocks a ∨ a = .finish := by
      cases msgs with
      | nil => exact .inr (List.cons.inj hacts).1
      | cons msg msgs =>
        rw [(List.cons.inj hacts).1]
        exact .inl (hsendable msg List.mem_cons_self)
    rcases split_message hcut with ⟨part, hpart, hmsg, rfl⟩ | ⟨part, rfl, hrest⟩
    · left
      obtain ⟨hstopped, hopen⟩ := @drain_cut _ req core _ _ _ _ _ _ h hleft _ ha hmsg hpart
      exact ⟨List.append_ne_nil_of_left_ne_nil hpart _, hstopped, k, hrun.holds, hopen⟩
    · cases msgs with
      | nil =>
        right
        obtain ⟨rfl, -⟩ := List.cons.inj hacts
        cases hrun
        have hstop : next req core s (ImageAction.finish.encode ++ part) =
            .stop (s.finish core) := by
          rw [next_message h.transferState hleft, message_finish]
        have hfinished : s.finish core =
            { s with acted := s.acted ++ [ImageAction.finish], core := some kf }.ended .finished := by
          unfold finish
          rw [act_goOn h.core hfinish]
          rfl
        rw [drain_stop hstop, hfinished]
        exact ⟨rfl, rfl, rfl⟩
      | cons msg msgs =>
        obtain ⟨rfl, hacts'⟩ := List.cons.inj hacts
        cases hrun with
        | cons hI hact hrun' =>
          obtain ⟨s', hopen, hleft', hdrain⟩ := @drain_message _ req core _ _ _ _ _ h hleft
            hpos _ (hsendable a List.mem_cons_self) hact
          rw [hdrain]
          exact ih hacts' hrun' (fun b hb => hsendable b (List.mem_cons_of_mem _ hb)) hopen
            hleft' hrest

end Cuts

end ImageSession

end UrBackup
