import Napastak.ParquetRead

/-! The two decoders of `parquet_connector.c` for the hybrid of repeated values and bit-packed groups, against what a writer puts down. -/
namespace Napastak.Parquet
open Codec Thrift

/-! ### What is written -/

structure Group (w : Nat) where
  values : List Nat
  eight : values.length = 8
  below : ∀ v ∈ values, v < 2 ^ w

/-- The lengths of runs are those of the format. -/
inductive Run (w : Nat)
  | rle (count value : Nat) (some_ : 0 < count) (fits : count < 2 ^ 31) (below : value < 2 ^ w)
  | packed (groups : List (Group w)) (some_ : 0 < groups.length) (fits : groups.length < 2 ^ 31)

section
variable {w : Nat}

def Run.values : Run w → List Nat
  | .rle count value _ _ _ => List.replicate count value
  | .packed groups _ _ => groups.flatMap Group.values

def runValues (runs : List (Run w)) : List Nat := runs.flatMap Run.values

def Group.bytes (g : Group w) : Bytes := leBytes w (Codec.packed w g.values)

def Run.bytes : Run w → Bytes
  | .rle count value _ _ _ => uvarint (2 * count) ++ leBytes ((w + 7) / 8) value
  | .packed groups _ _ => uvarint (2 * groups.length + 1) ++ groups.flatMap Group.bytes

def runBytes (runs : List (Run w)) : Bytes := runs.flatMap Run.bytes

theorem runValuesCons (r : Run w) (runs : List (Run w)) : runValues (r :: runs) = r.values ++ runValues runs := rfl

theorem runBytesCons (r : Run w) (runs : List (Run w)) : runBytes (r :: runs) = r.bytes ++ runBytes runs := rfl

/-! ### A group -/

theorem bitAtIs (p : Bytes) (i : Nat) : bitAt p i = (leValue p >>> i) % 2 := leBit p i

theorem groupValuesIs (gp : Bytes) : groupValues w gp = (List.range 8).map fun v => (leValue gp >>> (v * w)) % 2 ^ w := by
  simp only [groupValues,bitAtIs,bitsFold]

theorem groupRead (g : Group w) : groupValues w g.bytes = g.values := by
  have room : Codec.packed w g.values < 256 ^ w := by
    have := packedLess g.below
    rwa [g.eight,Nat.mul_comm,Nat.pow_mul] at this
  rw [groupValuesIs,Group.bytes,leValueBytes room]
  refine List.ext_getElem (by simp [g.eight]) fun i _ inside => ?_
  rw [List.getElem_map,List.getElem_range,packedGet g.below inside]

theorem groupLong (g : Group w) : g.bytes.length = w := leBytesLength w _

/-- The groups of `rle_bp_dec` are those of the other decoder where a group takes one byte. -/
theorem bpAlike (g nmax : Nat) (s : Bytes) : bpGroups 1 g nmax s = dictGroups 1 g nmax s := by
  induction g generalizing nmax s with
  | zero => rfl
  | succ g ih =>
    cases s with
    | nil => simp [bpGroups,dictGroups]
    | cons c s =>
      have one : groupValues 1 [c] = (List.range 8).map fun v => (c.toNat >>> (v * 1)) % 2 ^ 1 := by
        rw [groupValuesIs,leValue,leValue,Nat.mul_zero,Nat.add_zero]
      simp [bpGroups,dictGroups,ih,one]

theorem groupsRead (gs : List (Group w)) (n : Nat) (rest : Bytes) :
    (dictGroups w gs.length n (gs.flatMap Group.bytes ++ rest)).1 = (gs.flatMap Group.values).take n ∧
    ((gs.flatMap Group.values).length ≤ n → (dictGroups w gs.length n (gs.flatMap Group.bytes ++ rest)).2 = rest) := by
  induction gs generalizing n with
  | nil => simp [dictGroups]
  | cons g gs ih =>
    have eight := g.eight
    by_cases none : n = 0
    · simp [dictGroups,none,eight]
    · have long : ¬(g.bytes ++ (gs.flatMap Group.bytes ++ rest)).length < w := by simp [groupLong]
      have first : (g.bytes ++ (gs.flatMap Group.bytes ++ rest)).take w = g.bytes := List.take_left' (groupLong g)
      have behind : (g.bytes ++ (gs.flatMap Group.bytes ++ rest)).drop w = gs.flatMap Group.bytes ++ rest := List.drop_left' (groupLong g)
      simp only [List.length_cons,List.flatMap_cons,List.append_assoc,dictGroups,if_neg none,if_neg long,first,behind,groupRead]
      have count : n - (g.values.take n).length = n - g.values.length := by rw [List.length_take]; omega
      rw [count]
      refine ⟨by rw [(ih _).1,List.take_append],fun room => (ih _).2 ?_⟩
      rw [List.length_append] at room
      omega

/-! ### A run -/

theorem headerRead {h : Nat} (fits : h < 2 ^ 32) (rest : Bytes) :
    (uvBytes (uvarint h ++ rest) 0 0).1 = h ∧ (uvarint h ++ rest).drop (uvBytes (uvarint h ++ rest) 0 0).2 = rest := by
  rw [uvBytesIs (by omega)]
  exact ⟨rfl,List.drop_left⟩

theorem runCountIs {c : Nat} (fits : c < 2 ^ 31) : asInt (c : Int) = c := by
  rw [asInt,Int.bmod_eq_of_le] <;> omega

theorem valueRead {v : Nat} (small : w ≤ 31) (below : v < 2 ^ w) (rest : Bytes) :
    runValue ((w + 7) / 8) (leBytes ((w + 7) / 8) v ++ rest) = (v,rest) := by
  have room : v < 256 ^ ((w + 7) / 8) := by
    have wide : 2 ^ w ≤ 2 ^ (8 * ((w + 7) / 8)) := Nat.pow_le_pow_right (by decide) (by omega)
    rw [Nat.pow_mul] at wide
    exact lt_of_lt_of_le below wide
  have word : v < 2 ^ 32 := lt_of_lt_of_le below (Nat.pow_le_pow_right (by decide) (by omega))
  rw [runValue,List.take_left' (leBytesLength _ _),List.drop_left' (leBytesLength _ _),leValueBytes room,Nat.mod_eq_of_lt word]

theorem bytesLong (r : Run w) : 0 < r.bytes.length := by
  cases r <;> simp [Run.bytes,uvarintLong]

/-- What a round does with a run and what stands behind it; where the count stops inside the run, the rest does not matter. -/
def RoundReads (dec : Nat → Nat → Bytes → List Nat) (r : Run w) : Prop :=
  ∀ fuel n rest, n ≠ 0 → ∃ behind, dec (fuel + 1) n (r.bytes ++ rest) = r.values.take n ++ dec fuel (n - r.values.length) behind ∧
    (r.values.length ≤ n → behind = rest)

theorem runsRead {dec : Nat → Nat → Bytes → List Nat} (full : ∀ fuel s, dec fuel 0 s = []) (ended : ∀ fuel n, dec fuel n [] = [])
    (round : ∀ r : Run w, RoundReads dec r) (runs : List (Run w)) {fuel : Nat} (enough : (runBytes runs).length ≤ fuel) (n : Nat) :
    dec fuel n (runBytes runs) = (runValues runs).take n := by
  induction runs generalizing fuel n with
  | nil => simp [runBytes,runValues,ended]
  | cons r runs ih =>
    have long := bytesLong r
    rw [runBytesCons,List.length_append] at enough
    obtain ⟨fuel,rfl⟩ : ∃ k, fuel = k + 1 := ⟨fuel - 1,by omega⟩
    by_cases none : n = 0
    · rw [none,full,List.take_zero]
    · obtain ⟨behind,one,same⟩ := round r fuel n (runBytes runs) none
      rw [runBytesCons,one,runValuesCons,List.take_append]
      congr 1
      by_cases room : r.values.length ≤ n
      · rw [same room]
        exact ih (by omega) _
      · rw [show n - r.values.length = 0 by omega,full,List.take_zero]

theorem dictFull (fuel : Nat) (s : Bytes) : rleDictGo w fuel 0 s = [] := by cases fuel <;> simp [rleDictGo]

theorem dictEnded (fuel n : Nat) : rleDictGo w fuel n [] = [] := by cases fuel <;> simp [rleDictGo]

theorem dictRound (small : w ≤ 31) (r : Run w) : RoundReads (rleDictGo w) r := by
  intro fuel n rest some_
  cases r with
  | rle count value positive fits below =>
    have head := headerRead (h := 2 * count) (by omega) (leBytes ((w + 7) / 8) value ++ rest)
    have more : ¬(uvarint (2 * count) ++ (leBytes ((w + 7) / 8) value ++ rest) = [] ∨ n = 0) := by
      simp [some_,List.ne_nil_of_length_pos (uvarintLong _)]
    refine ⟨rest,?_,fun _ => rfl⟩
    simp only [Run.bytes,Run.values,List.append_assoc,rleDictGo,if_neg more,head,show 2 * count % 2 ≠ 1 by omega,if_false,
      valueRead small below,runCount,show 2 * count / 2 = count by omega,runCountIs fits,Int.toNat_natCast,List.take_replicate,
      List.length_replicate,Nat.min_comm count n]
    rw [show n - min n count = n - count by omega]
  | packed groups positive fits =>
    have head := headerRead (h := 2 * groups.length + 1) (by omega) (groups.flatMap Group.bytes ++ rest)
    have more : ¬(uvarint (2 * groups.length + 1) ++ (groups.flatMap Group.bytes ++ rest) = [] ∨ n = 0) := by
      simp [some_,List.ne_nil_of_length_pos (uvarintLong _)]
    have read := groupsRead groups n rest
    refine ⟨(dictGroups w groups.length n (groups.flatMap Group.bytes ++ rest)).2,?_,fun room => read.2 room⟩
    simp only [Run.bytes,Run.values,List.append_assoc,rleDictGo,if_neg more,head,show (2 * groups.length + 1) % 2 = 1 by omega,if_true,
      runCount,show (2 * groups.length + 1) / 2 = groups.length by omega,runCountIs fits,Int.toNat_natCast,read.1,List.length_take]
    rw [show n - min n (groups.flatMap Group.values).length = n - (groups.flatMap Group.values).length by omega]

end

theorem bpFull (fuel : Nat) (s : Bytes) : rleBpGo 1 fuel 0 s = [] := by cases fuel <;> simp [rleBpGo]

theorem bpEnded (fuel n : Nat) : rleBpGo 1 fuel n [] = [] := by cases fuel <;> simp [rleBpGo]

/-- Only the header zero, which no run of the format has, tells the decoders apart. -/
theorem bpRound (r : Run 1) : RoundReads (rleBpGo 1) r := by
  intro fuel n rest some_
  cases r with
  | rle count value positive fits below =>
    have head := headerRead (h := 2 * count) (by omega) (leBytes ((1 + 7) / 8) value ++ rest)
    have more : ¬(uvarint (2 * count) ++ (leBytes ((1 + 7) / 8) value ++ rest) = [] ∨ n = 0) := by
      simp [some_,List.ne_nil_of_length_pos (uvarintLong _)]
    refine ⟨rest,?_,fun _ => rfl⟩
    simp only [Run.bytes,Run.values,List.append_assoc,rleBpGo,if_neg more,head,show 2 * count % 2 ≠ 1 by omega,
      show 2 * count ≠ 0 by omega,if_false,valueRead (by decide) below,runCount,show 2 * count / 2 = count by omega,runCountIs fits,
      Int.toNat_natCast,List.take_replicate,List.length_replicate,Nat.min_comm count n]
    rw [show n - min n count = n - count by omega,show value % 256 = value by omega]
  | packed groups positive fits =>
    have head := headerRead (h := 2 * groups.length + 1) (by omega) (groups.flatMap Group.bytes ++ rest)
    have more : ¬(uvarint (2 * groups.length + 1) ++ (groups.flatMap Group.bytes ++ rest) = [] ∨ n = 0) := by
      simp [some_,List.ne_nil_of_length_pos (uvarintLong _)]
    have read := groupsRead groups n rest
    refine ⟨(dictGroups 1 groups.length n (groups.flatMap Group.bytes ++ rest)).2,?_,fun room => read.2 room⟩
    simp only [Run.bytes,Run.values,List.append_assoc,rleBpGo,if_neg more,head,show (2 * groups.length + 1) % 2 = 1 by omega,if_true,
      show 2 * groups.length + 1 ≠ 0 by omega,if_false,runCount,show (2 * groups.length + 1) / 2 = groups.length by omega,
      runCountIs fits,Int.toNat_natCast,bpAlike,read.1,List.length_take]
    rw [show n - min n (groups.flatMap Group.values).length = n - (groups.flatMap Group.values).length by omega]

theorem dictReads {w : Nat} (some_ : 1 ≤ w) (small : w ≤ 31) (runs : List (Run w)) (n : Nat) :
    rleDictDec (runBytes runs) w n = (runValues runs).take n := by
  rw [rleDictDec,if_neg (by omega)]
  exact runsRead dictFull dictEnded (dictRound small) runs le_rfl n

theorem bpReads (runs : List (Run 1)) (n : Nat) : rleBpDec (runBytes runs) 1 n = (runValues runs).take n :=
  runsRead bpFull bpEnded bpRound runs le_rfl n

/-! ### The bytes that are read -/

section
variable (d : Bytes)

/-- `tc_uv` from a position on; here and below, none where a byte outside is read. -/
def uvAt : Nat → Nat → Nat → Nat → Option (Nat × Nat)
  | 0, _, _, _ => none
  | fuel + 1, pos, sh, r =>
    if pos < d.length then
      d[pos]?.bind fun c =>
        if c < 0x80 then some (r ||| ((c.toNat &&& 0x7F) <<< sh) % 2 ^ 64,pos + 1)
        else uvAt fuel (pos + 1) (sh + 7) (r ||| ((c.toNat &&& 0x7F) <<< sh) % 2 ^ 64)
    else some (r,pos)

/-- The bytes of a repeated value, as far as there are any. -/
def valueAt : Nat → Nat → Option (Nat × Nat)
  | 0, pos => some (0,pos)
  | vb + 1, pos =>
    if pos < d.length then d[pos]?.bind fun c => (valueAt vb (pos + 1)).map fun (v,pos) => (c.toNat + 256 * v,pos)
    else some (0,pos)

/-- The value `v` of the group at a position. -/
def bitsAt (bw pos v : Nat) : Option Nat :=
  (List.range bw).foldlM (fun val k => d[pos + (v * bw + k) / 8]?.map fun c => val ||| (c.toNat >>> ((v * bw + k) % 8) % 2) <<< k) 0

def dictGroupsAt (bw : Nat) : Nat → Nat → Nat → Option (List Nat × Nat)
  | 0, _, pos => some ([],pos)
  | g + 1, n, pos =>
    if n = 0 then some ([],pos)
    else if d.length < pos + bw then some ([],d.length)
    else
      ((List.range (min 8 n)).mapM (bitsAt d bw pos)).bind fun vs =>
        (dictGroupsAt bw g (n - vs.length) (pos + bw)).map fun (rest,pos) => (vs ++ rest,pos)

def bpGroupsAt (bw : Nat) : Nat → Nat → Nat → Option (List Nat × Nat)
  | 0, _, pos => some ([],pos)
  | g + 1, n, pos =>
    if pos < d.length ∧ n ≠ 0 then
      d[pos]?.bind fun c =>
        (bpGroupsAt bw g (n - min 8 n) (pos + 1)).map fun (rest,pos) =>
          ((List.range (min 8 n)).map (fun v => (c.toNat >>> (v * bw)) % 2 ^ bw) ++ rest,pos)
    else some ([],pos)

def rleDictAtGo (bw : Nat) : Nat → Nat → Nat → Option (List Nat)
  | 0, _, _ => none
  | fuel + 1, n, pos =>
    if pos < d.length ∧ n ≠ 0 then
      (uvAt d (d.length + 1) pos 0 0).bind fun (hdr,pos) =>
        if hdr % 2 = 1 then
          (dictGroupsAt d bw (runCount hdr) n pos).bind fun (vs,pos) =>
            (rleDictAtGo bw fuel (n - vs.length) pos).map fun rest => vs ++ rest
        else
          (valueAt d ((bw + 7) / 8) pos).bind fun (val,pos) =>
            (rleDictAtGo bw fuel (n - min (runCount hdr) n) pos).map fun rest =>
              List.replicate (min (runCount hdr) n) (val % 2 ^ 32) ++ rest
    else some []

/-- `rle_dict_dec` by position. -/
def rleDictAt (bw n : Nat) : Option (List Nat) :=
  if bw = 0 then some (List.replicate n 0) else rleDictAtGo d bw (d.length + 1) n 0

def rleBpAtGo (bw : Nat) : Nat → Nat → Nat → Option (List Nat)
  | 0, _, _ => none
  | fuel + 1, n, pos =>
    if pos < d.length ∧ n ≠ 0 then
      (uvAt d (d.length + 1) pos 0 0).bind fun (hdr,pos) =>
        if hdr = 0 then some []
        else if hdr % 2 = 1 then
          (bpGroupsAt d bw (runCount hdr) n pos).bind fun (vs,pos) =>
            (rleBpAtGo bw fuel (n - vs.length) pos).map fun rest => vs ++ rest
        else
          (valueAt d ((bw + 7) / 8) pos).bind fun (val,pos) =>
            (rleBpAtGo bw fuel (n - min (runCount hdr) n) pos).map fun rest =>
              List.replicate (min (runCount hdr) n) (val % 2 ^ 32 % 256) ++ rest
    else some []

/-- `rle_bp_dec` by position. -/
def rleBpAt (bw n : Nat) : Option (List Nat) := rleBpAtGo d bw (d.length + 1) n 0

end

section
variable {d : Bytes}

/-- A reader by position gives what the one over the bytes from there on gives, and comes to stand before what that one leaves. -/
def StandsAt {α : Type} (d : Bytes) (pos : Nat) (at_ : Option (α × Nat)) (read : α × Bytes) : Prop :=
  ∃ next, at_ = some (read.1,next) ∧ d.drop next = read.2 ∧ pos ≤ next ∧ next ≤ d.length

theorem dropAt {pos : Nat} (inside : pos < d.length) : ∃ c, d[pos]? = some c ∧ d.drop pos = c :: d.drop (pos + 1) :=
  ⟨d[pos],List.getElem?_eq_getElem inside,List.drop_eq_getElem_cons inside⟩

theorem dropOut {pos : Nat} (outside : ¬pos < d.length) : d.drop pos = [] := List.drop_of_length_le (by omega)

theorem uvStands {fuel pos : Nat} (here : pos ≤ d.length) (enough : d.length ≤ pos + fuel) (sh r : Nat) :
    StandsAt d pos (uvAt d (fuel + 1) pos sh r) ((uvBytes (d.drop pos) sh r).1,(d.drop pos).drop (uvBytes (d.drop pos) sh r).2) := by
  induction fuel generalizing pos sh r with
  | zero =>
    have outside : ¬pos < d.length := by omega
    exact ⟨pos,by simp [uvAt,outside,dropOut outside,uvBytes],by simp [dropOut outside],le_rfl,here⟩
  | succ fuel ih =>
    by_cases inside : pos < d.length
    · obtain ⟨c,byte,behind⟩ := dropAt inside
      rw [uvAt,if_pos inside,byte,behind,uvBytes,Option.bind_some]
      split
      · exact ⟨pos + 1,rfl,rfl,by omega,inside⟩
      · obtain ⟨next,read,rest,later,within⟩ := @ih (pos + 1) inside (by omega) (sh + 7) (r ||| ((c.toNat &&& 0x7F) <<< sh) % 2 ^ 64)
        exact ⟨next,read,by rw [rest,List.drop_succ_cons],by omega,within⟩
    · exact ⟨pos,by simp [uvAt,inside,dropOut inside,uvBytes],by simp [dropOut inside],le_rfl,here⟩

/-- Inside the data the header of a run takes a byte at least. -/
theorem headerStands {pos : Nat} (inside : pos < d.length) :
    ∃ next, uvAt d (d.length + 1) pos 0 0 = some ((uvBytes (d.drop pos) 0 0).1,next) ∧
      d.drop next = (d.drop pos).drop (uvBytes (d.drop pos) 0 0).2 ∧ pos < next ∧ next ≤ d.length := by
  obtain ⟨next,read,rest,later,within⟩ := @uvStands d d.length pos inside.le (by omega) 0 0
  refine ⟨next,read,rest,Nat.lt_of_le_of_ne later fun same => ?_,within⟩
  have moves : 0 < (uvBytes (d.drop pos) 0 0).2 := by
    obtain ⟨c,_,behind⟩ := dropAt inside
    rw [behind,uvBytes]
    split <;> simp
  have long := congrArg List.length rest
  simp only [← same,List.length_drop] at long
  omega

theorem valueStands (vb : Nat) {pos : Nat} (here : pos ≤ d.length) :
    StandsAt d pos (valueAt d vb pos) (leValue ((d.drop pos).take vb),(d.drop pos).drop vb) := by
  induction vb generalizing pos with
  | zero => exact ⟨pos,by simp [valueAt,leValue],rfl,le_rfl,here⟩
  | succ vb ih =>
    by_cases inside : pos < d.length
    · obtain ⟨c,byte,behind⟩ := dropAt inside
      obtain ⟨next,read,rest,later,within⟩ := @ih (pos + 1) inside
      refine ⟨next,?_,by rw [rest,behind,List.drop_succ_cons],by omega,within⟩
      rw [valueAt,if_pos inside,byte,Option.bind_some,read,Option.map_some,behind,List.take_succ_cons,leValue]
    · exact ⟨pos,by simp [valueAt,inside,dropOut inside,leValue],by simp [dropOut inside],le_rfl,here⟩

theorem foldlMSome {α β : Type} {f : β → α → Option β} {g : β → α → β} {xs : List α} (each : ∀ x ∈ xs, ∀ b, f b x = some (g b x)) (b : β) :
    xs.foldlM f b = some (xs.foldl g b) := by
  induction xs generalizing b with
  | nil => rfl
  | cons x xs ih =>
    rw [List.foldlM_cons,each x List.mem_cons_self,Option.bind_eq_bind,Option.bind_some]
    exact ih (fun y hy => each y (List.mem_cons_of_mem _ hy)) _

/-- The bits of a group that is all there. -/
theorem bitsInside {bw pos v : Nat} (room : pos + bw ≤ d.length) (one : v < 8) :
    bitsAt d bw pos v = some ((List.range bw).foldl (fun val k => val ||| bitAt ((d.drop pos).take bw) (v * bw + k) <<< k) 0) := by
  refine foldlMSome (fun k hk val => ?_) 0
  have bit : k < bw := List.mem_range.mp hk
  have byte : (v * bw + k) / 8 < bw := by
    have : v * bw ≤ 7 * bw := Nat.mul_le_mul_right _ (by omega)
    omega
  have there : ((d.drop pos).take bw)[(v * bw + k) / 8]? = d[pos + (v * bw + k) / 8]? := by
    rw [List.getElem?_take_of_lt byte,List.getElem?_drop]
  rw [bitAt,there,List.getElem?_eq_getElem (by omega),Option.map_some,Option.getD_some]

theorem groupStands {bw pos n : Nat} (room : pos + bw ≤ d.length) :
    (List.range (min 8 n)).mapM (bitsAt d bw pos) = some ((groupValues bw ((d.drop pos).take bw)).take n) := by
  rw [groupValues,← List.map_take,List.take_range,Nat.min_comm n 8]
  exact mapMMap fun v hv => bitsInside room (by have := List.mem_range.mp hv; omega)

theorem dictGroupsStand (bw g n : Nat) {pos : Nat} (here : pos ≤ d.length) :
    StandsAt d pos (dictGroupsAt d bw g n pos) (dictGroups bw g n (d.drop pos)) := by
  induction g generalizing n pos with
  | zero => exact ⟨pos,rfl,rfl,le_rfl,here⟩
  | succ g ih =>
    rw [dictGroupsAt,dictGroups]
    by_cases none : n = 0
    · rw [if_pos none,if_pos none]
      exact ⟨pos,rfl,rfl,le_rfl,here⟩
    rw [if_neg none,if_neg none,List.length_drop]
    by_cases short : d.length < pos + bw
    · rw [if_pos short,if_pos (by omega)]
      exact ⟨d.length,rfl,List.drop_length,here,le_rfl⟩
    · obtain ⟨next,read,rest,later,within⟩ := @ih (n - ((groupValues bw ((d.drop pos).take bw)).take n).length) (pos + bw) (by omega)
      rw [if_neg short,if_neg (by omega),groupStands (by omega),Option.bind_some,read,Option.map_some,List.drop_drop]
      exact ⟨next,rfl,rest,by omega,within⟩

theorem bpGroupsStand (bw g n : Nat) {pos : Nat} (here : pos ≤ d.length) :
    StandsAt d pos (bpGroupsAt d bw g n pos) (bpGroups bw g n (d.drop pos)) := by
  induction g generalizing n pos with
  | zero => exact ⟨pos,rfl,by rw [bpGroups],le_rfl,here⟩
  | succ g ih =>
    rw [bpGroupsAt]
    by_cases inside : pos < d.length
    · obtain ⟨c,byte,behind⟩ := dropAt inside
      by_cases none : n = 0
      · rw [if_neg (by omega),behind,bpGroups,if_pos none]
        exact ⟨pos,rfl,behind,le_rfl,here⟩
      · have values : (List.range (min 8 n)).map (fun v => (c.toNat >>> (v * bw)) % 2 ^ bw) =
            ((List.range 8).map fun v => (c.toNat >>> (v * bw)) % 2 ^ bw).take n := by
          rw [← List.map_take,List.take_range,Nat.min_comm n 8]
        have count : n - (((List.range 8).map fun v => (c.toNat >>> (v * bw)) % 2 ^ bw).take n).length = n - min 8 n := by
          rw [List.length_take,List.length_map,List.length_range,Nat.min_comm]
        obtain ⟨next,read,rest,later,within⟩ := @ih (n - min 8 n) (pos + 1) inside
        rw [if_pos ⟨inside,none⟩,byte,Option.bind_some,read,Option.map_some,behind,bpGroups,if_neg none,values]
        dsimp only
        rw [count]
        exact ⟨next,rfl,rest,by omega,within⟩
    · rw [if_neg (by omega),dropOut inside,bpGroups]
      exact ⟨pos,rfl,dropOut inside,le_rfl,here⟩

theorem roundMore {pos n : Nat} : (d.drop pos = [] ∨ n = 0) ↔ ¬(pos < d.length ∧ n ≠ 0) := by
  rw [List.drop_eq_nil_iff]
  omega

/-- What a round adds, and the rounds behind it. -/
theorem thenRounds {pos : Nat} {at_ : Option (List Nat × Nat)} {read : List Nat × Bytes} (stands : StandsAt d pos at_ read)
    {more : Nat → Nat → Option (List Nat)} {rounds : Nat → Bytes → List Nat}
    (rest : ∀ n p, pos ≤ p → p ≤ d.length → more n p = some (rounds n (d.drop p))) (n : Nat) :
    (at_.bind fun (vs,p) => (more (n - vs.length) p).map fun rest => vs ++ rest) =
      some (read.1 ++ rounds (n - read.1.length) read.2) := by
  obtain ⟨next,values,left,later,within⟩ := stands
  rw [values,Option.bind_some]
  dsimp only
  rw [rest _ _ later within,left,Option.map_some]

theorem dictInside (bw fuel n : Nat) {pos : Nat} (here : pos ≤ d.length) (enough : d.length ≤ pos + fuel) :
    rleDictAtGo d bw (fuel + 1) n pos = some (rleDictGo bw fuel n (d.drop pos)) := by
  induction fuel generalizing n pos with
  | zero => rw [rleDictAtGo,if_neg (by omega),rleDictGo]
  | succ fuel ih =>
    rw [rleDictAtGo,rleDictGo]
    by_cases more : pos < d.length ∧ n ≠ 0
    · obtain ⟨next,header,rest,later,within⟩ := headerStands more.1
      rw [if_pos more,if_neg (fun h => roundMore.mp h more),header,Option.bind_some,← rest]
      dsimp only
      split
      · exact thenRounds (dictGroupsStand bw _ n within) (fun m p past inside => ih m inside (by omega)) n
      · obtain ⟨after,value,left,past,inside⟩ := valueStands ((bw + 7) / 8) within
        rw [value,Option.bind_some,ih _ inside (by omega),left,List.length_replicate,runValue,Option.map_some]
    · rw [if_neg more,if_pos (roundMore.mpr more)]

theorem bpInside (bw fuel n : Nat) {pos : Nat} (here : pos ≤ d.length) (enough : d.length ≤ pos + fuel) :
    rleBpAtGo d bw (fuel + 1) n pos = some (rleBpGo bw fuel n (d.drop pos)) := by
  induction fuel generalizing n pos with
  | zero => rw [rleBpAtGo,if_neg (by omega),rleBpGo]
  | succ fuel ih =>
    rw [rleBpAtGo,rleBpGo]
    by_cases more : pos < d.length ∧ n ≠ 0
    · obtain ⟨next,header,rest,later,within⟩ := headerStands more.1
      rw [if_pos more,if_neg (fun h => roundMore.mp h more),header,Option.bind_some,← rest]
      dsimp only
      split
      · rfl
      split
      · exact thenRounds (bpGroupsStand bw _ n within) (fun m p past inside => ih m inside (by omega)) n
      · obtain ⟨after,value,left,past,inside⟩ := valueStands ((bw + 7) / 8) within
        rw [value,Option.bind_some,ih _ inside (by omega),left,List.length_replicate,runValue,Option.map_some]
    · rw [if_neg more,if_pos (roundMore.mpr more)]

theorem dictAtIs (bw n : Nat) : rleDictAt d bw n = some (rleDictDec d bw n) := by
  rw [rleDictAt,rleDictDec]
  split
  · rfl
  · exact dictInside bw d.length n (Nat.zero_le _) (by omega)

theorem bpAtIs (bw n : Nat) : rleBpAt d bw n = some (rleBpDec d bw n) := bpInside bw d.length n (Nat.zero_le _) (by omega)

end

/-! ### The two decoders -/

/-- The runs hold the list, and behind it what fills the last group. -/
def Cuts {w : Nat} (runs : List (Run w)) (xs : List Nat) : Prop := ∃ padding, runValues runs = xs ++ padding

theorem cutRead {w : Nat} {runs : List (Run w)} {xs : List Nat} (cut : Cuts runs xs) : (runValues runs).take xs.length = xs := by
  obtain ⟨padding,whole⟩ := cut
  rw [whole,List.take_left]

theorem hybridReads :
    (∀ w, 1 ≤ w → w ≤ 31 → ∀ (runs : List (Run w)) (xs : List Nat), Cuts runs xs → rleDictAt (runBytes runs) w xs.length = some xs) ∧
    (∀ (runs : List (Run 1)) (xs : List Nat), Cuts runs xs → rleBpAt (runBytes runs) 1 xs.length = some xs) ∧
    (∀ (d : Bytes) (bw n : Nat), (rleDictAt d bw n).isSome ∧ (rleBpAt d bw n).isSome) := by
  refine ⟨fun w some_ small runs xs cut => ?_,fun runs xs cut => ?_,fun d bw n => ?_⟩
  · rw [dictAtIs,dictReads some_ small,cutRead cut]
  · rw [bpAtIs,bpReads,cutRead cut]
  · rw [dictAtIs,bpAtIs]
    exact ⟨rfl,rfl⟩

def repeated : Run 1 := .rle 3 1 (by decide) (by decide) (by decide)

def fiveThenTwo : List (Run 3) :=
  [.rle 5 6 (by decide) (by decide) (by decide),
   .packed [⟨[1,2,3,4,5,6,7,0],rfl,by decide⟩,⟨[7,7,0,0,0,0,0,0],rfl,by decide⟩] (by decide) (by decide)]

theorem hybridReadsSome :
    rleDictAt (runBytes fiveThenTwo) 3 [6,6,6,6,6,1,2,3,4,5,6,7,0,7,7].length = some [6,6,6,6,6,1,2,3,4,5,6,7,0,7,7] ∧
    rleBpAt (runBytes [repeated]) 1 [1,1,1].length = some [1,1,1] :=
  ⟨hybridReads.1 3 (by decide) (by decide) fiveThenTwo _ ⟨[0,0,0,0,0,0],rfl⟩,
   hybridReads.2.1 _ _ ⟨[],rfl⟩⟩

end Napastak.Parquet
