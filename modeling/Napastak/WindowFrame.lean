import Napastak.SqlParser

/-! The frame of a window function: `win_frame_start`, `win_frame_end`, and the rows that an aggregate, `FIRST_VALUE`
and `LAST_VALUE` read through them. -/
namespace Napastak.Window
open Query Sql SqlParser

/-- What an `int` keeps of a sum or a difference. -/
def int32 (x : Int) : Int := x.bmod (2 ^ 32)

def winFrameStart (start : WinFrameBound) (pi plen : Int) : Int :=
  match start.kind with
  | .unboundedPrec => 0
  | .nPrec => let v := int32 (pi - int32 start.n.toInt); if v < 0 then 0 else v
  | .nFoll => let v := int32 (pi + int32 start.n.toInt); if v ≥ plen then plen else v
  | _ => pi

def winFrameEnd (stop : WinFrameBound) (pi plen : Int) : Int :=
  match stop.kind with
  | .unboundedFoll => plen - 1
  | .nFoll => let v := int32 (pi + int32 stop.n.toInt); if v ≥ plen then plen - 1 else v
  | .nPrec => let v := int32 (pi - int32 stop.n.toInt); if v < 0 then 0 else v
  | .unboundedPrec => 0
  | _ => pi

/-- The functions that look at the frame; every aggregate walks over it alike. -/
inductive FrameFn
  | aggregate | firstValue | lastValue
  deriving DecidableEq, Repr

/-- `for (fi = f_s; fi <= f_e; fi++)`. -/
def positions (first last : Int) : List Int := (List.range (last - first + 1).toNat).map fun k : Nat => first + (k : Int)

/-- The bounds at the row at `pi`; those of a window without a frame depend on the function. -/
def frameBounds (fn : FrameFn) (frame : Option (WinFrameType × WinFrameBound × WinFrameBound)) (norder : Nat) (pi plen : Int) :
    Int × Int :=
  match frame with
  | some (_,start,stop) => (winFrameStart start pi plen,winFrameEnd stop pi plen)
  | none => if fn = .aggregate ∧ 0 < norder then (0,pi) else (0,plen - 1)

/-- The positions in the sorted partition that are read for the row at `pi`. -/
def rowsRead (fn : FrameFn) (frame : Option (WinFrameType × WinFrameBound × WinFrameBound)) (norder : Nat) (pi plen : Int) :
    List Int :=
  let (first,last) := frameBounds fn frame norder pi plen
  match fn with
  | .aggregate => positions first last
  | .firstValue => [first]
  | .lastValue => [last]

/-! ### The frame that was asked for -/

/-- `q` is not in front of the start of the frame of `pos`. -/
def Starts (start : WinFrameBound) (pos q : Int) : Prop :=
  match start.kind with
  | .unboundedPrec => True
  | .nPrec => pos - start.n.toInt ≤ q
  | .currentRow => pos ≤ q
  | .nFoll => pos + start.n.toInt ≤ q
  | .unboundedFoll => False

/-- `q` is not behind the end of the frame of `pos`. -/
def Ends (stop : WinFrameBound) (pos q : Int) : Prop :=
  match stop.kind with
  | .unboundedPrec => False
  | .nPrec => q ≤ pos - stop.n.toInt
  | .currentRow => q ≤ pos
  | .nFoll => q ≤ pos + stop.n.toInt
  | .unboundedFoll => True

instance (start : WinFrameBound) (pos q : Int) : Decidable (Starts start pos q) := by
  unfold Starts
  split <;> infer_instance

instance (stop : WinFrameBound) (pos q : Int) : Decidable (Ends stop pos q) := by
  unfold Ends
  split <;> infer_instance

/-- The positions of the partition inside the frame, in order. -/
def frameOf (start stop : WinFrameBound) (pos : Int) (plen : Nat) : List Int :=
  ((List.range plen).map Int.ofNat).filter fun q => Starts start pos q ∧ Ends stop pos q

/-- What the function is to read of the frame. -/
def wanted (fn : FrameFn) (frame : List Int) : List Int :=
  match fn with
  | .aggregate => frame
  | .firstValue => frame.head?.toList
  | .lastValue => frame.getLast?.toList

/-! ### Ranges of positions -/

theorem memPositions {a b q : Int} : q ∈ positions a b ↔ a ≤ q ∧ q ≤ b := by
  simp only [positions,List.mem_map,List.mem_range]
  constructor
  · rintro ⟨k,lt,rfl⟩
    omega
  · rintro ⟨low,high⟩
    exact ⟨(q - a).toNat,by omega,by omega⟩

theorem positionsNil {a b : Int} : positions a b = [] ↔ b < a := by
  rw [positions,List.map_eq_nil_iff,List.range_eq_nil]
  omega

theorem positionsCons {a b : Int} (le : a ≤ b) : positions a b = a :: positions (a + 1) b := by
  have count : (b - a + 1).toNat = (b - (a + 1) + 1).toNat + 1 := by omega
  rw [positions,count,List.range_succ_eq_map,List.map_cons,List.map_map,positions]
  congr 1
  · simp
  · refine List.map_congr_left fun k _ => ?_
    simp only [Function.comp_apply,Int.natCast_succ]
    omega

theorem positionsHead {a b : Int} (le : a ≤ b) : (positions a b).head? = some a := by
  rw [positionsCons le]
  rfl

theorem positionsLast {a b : Int} (le : a ≤ b) : (positions a b).getLast? = some b := by
  have count : (b - a + 1).toNat = (b - a).toNat + 1 := by omega
  rw [positions,count,List.range_succ,List.map_append,List.map_singleton,List.getLast?_concat]
  congr 1
  omega

theorem positionsEq {a b c d : Int} : positions a b = positions c d ↔ (a = c ∧ b = d) ∨ (b < a ∧ d < c) := by
  constructor
  · intro same
    by_cases empty : b < a
    · exact .inr ⟨empty,positionsNil.1 (same ▸ positionsNil.2 empty)⟩
    · have other : ¬ d < c := fun h => empty (positionsNil.1 (same.trans (positionsNil.2 h)))
      have heads := positionsHead (Int.not_lt.1 empty)
      have lasts := positionsLast (Int.not_lt.1 empty)
      rw [same,positionsHead (Int.not_lt.1 other)] at heads
      rw [same,positionsLast (Int.not_lt.1 other)] at lasts
      exact .inl ⟨(Option.some.inj heads).symm,(Option.some.inj lasts).symm⟩
  · rintro (⟨rfl,rfl⟩ | ⟨h,h'⟩)
    · rfl
    · rw [positionsNil.2 h,positionsNil.2 h']

/-- Filtering positions of the partition by bounds leaves the range between them. -/
theorem filterRange {plen : Nat} {p : Int → Bool} {low high : Int} (floor : 0 ≤ low) (roof : high < plen)
    (cuts : ∀ q : Int, 0 ≤ q → q < plen → (p q ↔ low ≤ q ∧ q ≤ high)) :
    ((List.range plen).map Int.ofNat).filter p = positions low high := by
  have sorted : (((List.range plen).map Int.ofNat).filter p).Pairwise (· < ·) := by
    refine List.Pairwise.filter _ (List.pairwise_map.2 ?_)
    exact List.pairwise_lt_range.imp fun h => Int.ofNat_lt.2 h
  have sorted' : (positions low high).Pairwise (· < ·) := by
    refine List.pairwise_map.2 (List.pairwise_lt_range.imp fun h => ?_)
    omega
  refine List.Perm.eq_of_pairwise (fun x y _ _ lt gt => absurd lt (Int.lt_asymm gt)) sorted sorted' ?_
  refine (List.perm_ext_iff_of_nodup (sorted.imp fun h => Int.ne_of_lt h) (sorted'.imp fun h => Int.ne_of_lt h)).2 fun q => ?_
  rw [List.mem_filter,memPositions,List.mem_map]
  constructor
  · rintro ⟨⟨k,mem,rfl⟩,is⟩
    exact (cuts _ (Int.natCast_nonneg k) (Int.ofNat_lt.2 (List.mem_range.1 mem))).1 is
  · rintro ⟨ge,le⟩
    exact ⟨⟨q.toNat,List.mem_range.2 (by omega),by simp; omega⟩,(cuts q (by omega) (by omega)).2 ⟨ge,le⟩⟩

/-! ### The bounds inside the partition -/

/-- The first position not in front of the start, counted inside the partition. -/
def lowest (start : WinFrameBound) (pos plen : Int) : Int :=
  match start.kind with
  | .unboundedPrec => 0
  | .nPrec => max (pos - start.n.toInt) 0
  | .currentRow => pos
  | .nFoll => pos + start.n.toInt
  | .unboundedFoll => plen

/-- The last position not behind the end, counted inside the partition. -/
def highest (stop : WinFrameBound) (pos plen : Int) : Int :=
  match stop.kind with
  | .unboundedPrec => -1
  | .nPrec => pos - stop.n.toInt
  | .currentRow => pos
  | .nFoll => min (pos + stop.n.toInt) (plen - 1)
  | .unboundedFoll => plen - 1

section
variable {start stop : WinFrameBound} {pi plen : Nat} {q : Int}

theorem startsFrom (low : 0 ≤ q) (high : q < plen) : Starts start pi q ↔ lowest start pi plen ≤ q := by
  unfold Starts lowest
  cases start.kind <;> simp only [true_iff,false_iff] <;> omega

theorem endsAt (low : 0 ≤ q) (high : q < plen) : Ends stop pi q ↔ q ≤ highest stop pi plen := by
  unfold Ends highest
  cases stop.kind <;> simp only [true_iff,false_iff] <;> omega

theorem frameIs (inside : pi < plen) (n : 0 ≤ start.n.toInt) (m : 0 ≤ stop.n.toInt) :
    frameOf start stop pi plen = positions (lowest start pi plen) (highest stop pi plen) := by
  refine filterRange ?_ ?_ fun q low high => ?_
  · unfold lowest
    split <;> omega
  · unfold highest
    split <;> omega
  · rw [decide_eq_true_iff,startsFrom low high,endsAt low high]

end

/-! ### The counts of a parsed frame -/

section
variable {F : Type} [Doubles F]

theorem saturateNat (k : Nat) : 0 ≤ (saturate k).toInt := by
  rw [saturate,if_neg (by omega)]
  split
  · decide
  · rw [Int64.toInt_ofInt_of_le (by omega) (by omega)]
    omega

theorem strtollDigit {c : UInt8} (is : isdigit c = true) (x : Bytes) : 0 ≤ (strtoll (c :: x)).toInt := by
  have still : isspace c = false := by
    simp [isdigit,isspace,UInt8.le_iff_toNat_le,← UInt8.toNat_inj] at *
    omega
  have minus : c ≠ 45 := by rintro rfl; exact absurd is (by decide)
  have plus : c ≠ 43 := by rintro rfl; exact absurd is (by decide)
  rw [strtoll,List.dropWhile_cons_of_neg (by simp [still])]
  split
  · exact absurd (List.cons.inj ‹_›).1 minus
  · exact saturateNat _
  · exact saturateNat _

/-- No token has a number below zero. -/
def Counted (toks : List (Token F)) : Prop := ∀ t ∈ toks, 0 ≤ t.ival.toInt

theorem numTokenCounts {c : UInt8} (is : isdigit c = true) {s x r : Bytes} {st : NumState}
    (read : Munch.munch numNext .int (c :: s) = (x,r,st)) : 0 ≤ (numToken F x st).ival.toInt := by
  rw [Munch.munch,numNext,if_pos is] at read
  obtain ⟨rfl,-⟩ := Prod.mk.inj read
  rw [numToken]
  split
  · exact strtollDigit is _
  · exact Int.le_refl 0

omit [Doubles F] in
theorem countedZero {k : Token F} (is : k.ival = 0) : Counted [k] := by
  intro t mem
  rw [List.mem_singleton.1 mem,is]
  decide

theorem wordTokenIval (w : Bytes) : (wordToken F w).ival = 0 := by
  unfold wordToken
  split <;> rfl

theorem lexStepCounts (s : Bytes) : Counted (lexStep F s).1 := by
  have none_ : Counted ([] : List (Token F)) := fun t mem => nomatch mem
  cases s with
  | nil => exact none_
  | cons c s =>
    rw [lexStep]
    split
    · exact none_
    split
    · exact none_
    split
    · exact none_
    split
    · split <;> exact countedZero rfl
    split
    · exact countedZero rfl
    split
    · exact countedZero rfl
    split
    · intro t mem
      rw [List.mem_singleton.1 mem]
      exact numTokenCounts ‹_› rfl
    split
    · exact countedZero (wordTokenIval _)
    · exact countedZero rfl

theorem lexAllCounts (s : Bytes) : Counted (lexAll F s) := by
  suffices all : ∀ n s, Counted (Munch.rounds (lexStep F) n s).flatten from all s.length s
  intro n
  induction n with
  | zero => exact fun s t mem => nomatch mem
  | succ n ih =>
    intro s
    cases s with
    | nil => exact fun t mem => nomatch mem
    | cons c s =>
      intro t mem
      rw [Munch.rounds,List.flatten_cons] at mem
      exact (List.mem_append.1 mem).elim (lexStepCounts _ t) (ih _ t)

/-- A parser that leaves no number below zero, and whose result is as `p` says. -/
def Counts {α : Type} (parse : Parse F α) (p : α → Prop) : Prop :=
  ∀ l, Counted l.toks → ∀ a l', parse l = some (a,l') → p a ∧ Counted l'.toks

section
variable {α β : Type} {p : α → Prop} {q : β → Prop}

omit [Doubles F] in
theorem countsPure {a : α} (is : p a) : Counts (pure a : Parse F α) p := by
  rintro l counted a' l' read
  cases read
  exact ⟨is,counted⟩

omit [Doubles F] in
theorem countsBind {parse : Parse F α} {f : α → Parse F β} (first : Counts parse p) (next : ∀ a, p a → Counts (f a) q) :
    Counts (parse >>= f) q := by
  intro l counted b l' read
  obtain ⟨⟨a,l''⟩,one,two⟩ := Option.bind_eq_some_iff.1 read
  obtain ⟨is,counted'⟩ := first l counted a l'' one
  exact next a is l'' counted' b l' two

end

theorem peekCounts : Counts (lexPeek : Parse F (Token F)) fun _ => True := by
  intro l counted t l' read
  cases read
  exact ⟨trivial,counted⟩

theorem consumeCounts : Counts (lexConsume : Parse F (Token F)) fun t => 0 ≤ t.ival.toInt := by
  intro l counted t l' read
  cases read
  refine ⟨?_,fun t mem => counted t (List.mem_of_mem_tail mem)⟩
  cases toks : l.toks with
  | nil => exact Int.le_refl 0
  | cons t ts => exact counted t (toks ▸ List.mem_cons_self)

theorem eatCounts (k : TkType) : Counts (lexEat k : Parse F Bool) fun _ => True := by
  intro l counted b l' read
  rw [lexEat] at read
  split at read <;> cases read
  · exact ⟨trivial,fun t mem => counted t (List.mem_of_mem_tail mem)⟩
  · exact ⟨trivial,counted⟩

theorem boundCounts : Counts (parseFrameBound : Parse F WinFrameBound) fun b => 0 ≤ b.n.toInt := by
  refine countsBind peekCounts fun t _ => ?_
  split
  · refine countsBind consumeCounts fun _ _ => countsBind (eatCounts _) fun b _ => ?_
    split
    · exact countsPure (Int.le_refl 0)
    · exact countsBind (eatCounts _) fun _ _ => countsPure (Int.le_refl 0)
  split
  · exact countsBind consumeCounts fun _ _ => countsBind (eatCounts _) fun _ _ => countsPure (Int.le_refl 0)
  · refine countsBind consumeCounts fun n positive => ?_
    have bound : 0 ≤ (if n.type = .numInt then n.ival else 1).toInt := by
      split
      · exact positive
      · decide
    refine countsBind (eatCounts _) fun b _ => ?_
    split
    · exact countsPure bound
    · exact countsBind (eatCounts _) fun _ _ => countsPure bound

/-- Both bounds of a frame that the parser reads count a number of rows. -/
theorem frameCounts : Counts (parseFrame : Parse F (Option (WinFrameType × WinFrameBound × WinFrameBound))) fun frame =>
    ∀ type start stop, frame = some (type,start,stop) → 0 ≤ start.n.toInt ∧ 0 ≤ stop.n.toInt := by
  refine countsBind peekCounts fun t _ => ?_
  split
  · refine countsBind consumeCounts fun _ _ => countsBind (eatCounts _) fun b _ => ?_
    split
    · refine countsBind boundCounts fun start low => countsBind (eatCounts _) fun _ _ => ?_
      refine countsBind boundCounts fun stop low' => countsPure ?_
      rintro _ _ _ ⟨⟩
      exact ⟨low,low'⟩
    · refine countsBind boundCounts fun start low => countsPure ?_
      rintro _ _ _ ⟨⟩
      exact ⟨low,Int.le_refl 0⟩
  · exact countsPure fun _ _ _ h => nomatch h

end

/-! ### When the frame is the one that was asked for -/

theorem int32Sub (a b : Int) : int32 (a - int32 b) = int32 (a - b) := by
  rw [int32,int32,int32,Int.sub_bmod_bmod]

theorem int32Add (a b : Int) : int32 (a + int32 b) = int32 (a + b) := by
  rw [int32,int32,int32,Int.add_bmod_bmod]

theorem int32Same {x : Int} (low : -2 ^ 31 ≤ x) (high : x < 2 ^ 31) : int32 x = x :=
  Int.bmod_eq_of_le (by omega) (by omega)

/-- The count of the start survives the 32 bits, or it leads in front of the partition both ways. -/
def StartFits (start : WinFrameBound) (pi : Int) : Prop :=
  start.kind = .nPrec →
    int32 (pi - start.n.toInt) = pi - start.n.toInt ∨ (int32 (pi - start.n.toInt) ≤ 0 ∧ pi - start.n.toInt ≤ 0)

/-- The count of the end survives the 32 bits, or it leads behind the partition both ways. -/
def EndFits (stop : WinFrameBound) (pi plen : Int) : Prop :=
  stop.kind = .nFoll →
    int32 (pi + stop.n.toInt) = pi + stop.n.toInt ∨
      (plen - 1 ≤ int32 (pi + stop.n.toInt) ∧ plen - 1 ≤ pi + stop.n.toInt)

/-- Bounds that name no position of the partition and that the code leaves crossed. -/
def StaysEmpty (start stop : WinFrameBound) (pi plen : Int) : Prop :=
  match start.kind,stop.kind with
  | .nPrec,.unboundedPrec => 0 < int32 (pi - start.n.toInt)
  | .nPrec,.nPrec => 0 < int32 (pi - start.n.toInt) ∧ int32 (pi - stop.n.toInt) < int32 (pi - start.n.toInt)
  | .currentRow,.unboundedPrec | .unboundedFoll,.unboundedPrec => 0 < pi
  | .currentRow,.nPrec | .unboundedFoll,.nPrec => 0 < pi ∧ int32 (pi - stop.n.toInt) < pi
  | .unboundedFoll,.nFoll => int32 (pi + stop.n.toInt) < pi
  | .nFoll,.unboundedPrec => 0 < int32 (pi + start.n.toInt)
  | .nFoll,.nPrec =>
    0 < int32 (pi + start.n.toInt) ∧ int32 (pi - stop.n.toInt) < int32 (pi + start.n.toInt) ∧ int32 (pi - stop.n.toInt) < plen
  | .nFoll,.currentRow => pi < int32 (pi + start.n.toInt)
  | .nFoll,.nFoll => plen ≤ int32 (pi + start.n.toInt) ∨ int32 (pi + stop.n.toInt) < int32 (pi + start.n.toInt)
  | .nFoll,.unboundedFoll => plen ≤ int32 (pi + start.n.toInt)
  | _,_ => False

/-- The condition on the function, the frame, the row and the length of the partition. -/
def Framed (fn : FrameFn) (start stop : WinFrameBound) (pi plen : Nat) : Prop :=
  if frameOf start stop pi plen = [] then fn = .aggregate ∧ StaysEmpty start stop pi plen
  else (fn ≠ .lastValue → StartFits start pi) ∧ (fn ≠ .firstValue → EndFits stop pi plen)

section
variable {fn : FrameFn} {start stop : WinFrameBound} {pi plen : Nat}

/-- In a frame with a row the start is right when its count fits. -/
theorem startRight (inside : pi < plen) (fits : plen < 2 ^ 31) (n : 0 ≤ start.n.toInt) (some_ : lowest start pi plen ≤ plen - 1) :
    winFrameStart start pi plen = lowest start pi plen ↔ StartFits start pi := by
  unfold winFrameStart lowest StartFits at *
  simp only [int32Sub,int32Add]
  cases kind : start.kind <;> simp only [kind] at some_ ⊢
  case nPrec =>
    simp only [forall_const]
    omega
  case nFoll =>
    rw [int32Same (by omega) (by omega)]
    simp
    omega
  all_goals
    simp
    try omega

/-- In a frame with a row the end is right when its count fits. -/
theorem endRight (inside : pi < plen) (fits : plen < 2 ^ 31) (m : 0 ≤ stop.n.toInt) (some_ : 0 ≤ highest stop pi plen) :
    winFrameEnd stop pi plen = highest stop pi plen ↔ EndFits stop pi plen := by
  unfold winFrameEnd highest EndFits at *
  simp only [int32Sub,int32Add]
  cases kind : stop.kind <;> simp only [kind] at some_ ⊢
  case nFoll =>
    simp only [forall_const]
    omega
  case nPrec =>
    rw [int32Same (by omega) (by omega)]
    simp
    omega
  all_goals
    simp
    try omega

/-- In a frame without a row the walk takes no step just when the bounds stay crossed. -/
theorem emptyRight (inside : pi < plen) (n : 0 ≤ start.n.toInt) (m : 0 ≤ stop.n.toInt)
    (none_ : highest stop pi plen < lowest start pi plen) :
    winFrameEnd stop pi plen < winFrameStart start pi plen ↔ StaysEmpty start stop pi plen := by
  unfold winFrameStart winFrameEnd StaysEmpty
  unfold lowest highest at none_
  simp only [int32Sub,int32Add]
  cases kind : start.kind <;> cases kind' : stop.kind <;> simp only [kind,kind',iff_false] at none_ ⊢ <;> omega

/-- The rows that are read are those of the frame under the condition and only under it. -/
theorem frameExact (inside : pi < plen) (fits : plen < 2 ^ 31) (n : 0 ≤ start.n.toInt) (m : 0 ≤ stop.n.toInt)
    (type : WinFrameType) (norder : Nat) :
    rowsRead fn (some (type,start,stop)) norder pi plen = wanted fn (frameOf start stop pi plen) ↔
      Framed fn start stop pi plen := by
  have is := frameIs inside n m
  by_cases none_ : highest stop pi plen < lowest start pi plen
  · rw [Framed,is,if_pos (positionsNil.2 none_),positionsNil.2 none_,← emptyRight inside n m none_]
    cases fn
    · rw [show wanted .aggregate [] = [] from rfl]
      simp only [rowsRead,frameBounds,positionsNil,true_and]
    all_goals simp [rowsRead,frameBounds,wanted]
  · rw [Framed,is,if_neg fun nil => none_ (positionsNil.1 nil)]
    have some_ := Int.not_lt.1 none_
    have bottom : 0 ≤ lowest start pi plen := by
      unfold lowest
      split <;> omega
    have top : highest stop pi plen ≤ plen - 1 := by
      unfold highest
      split <;> omega
    have startIff := startRight inside fits n (by omega)
    have endIff := endRight inside fits m (by omega)
    rw [← startIff,← endIff]
    cases fn
    · simp only [rowsRead,frameBounds,wanted,positionsEq]
      simp
      omega
    · simp [rowsRead,frameBounds,wanted,positionsHead some_]
    · simp [rowsRead,frameBounds,wanted,positionsLast some_]

/-- The last of five rows with the frame from one row back. -/
theorem frameExactLast :
    (4 < 5 ∧ (0 : Int) ≤ (1 : Int64).toInt) ∧
      (rowsRead .aggregate (some (.rows,⟨.nPrec,1⟩,⟨.unboundedFoll,0⟩)) 1 (4 : Nat) (5 : Nat) =
          wanted .aggregate (frameOf ⟨.nPrec,1⟩ ⟨.unboundedFoll,0⟩ (4 : Nat) 5) ↔
        Framed .aggregate ⟨.nPrec,1⟩ ⟨.unboundedFoll,0⟩ 4 5) :=
  ⟨by decide,frameExact (by decide) (by decide) (by decide) (by decide) .rows 1⟩

/-- From three rows back to two rows back the first row has no frame, and the aggregate reads that row itself; on one
row `LAST_VALUE` of the frame that starts behind it reads it too, and `FIRST_VALUE` reads behind the partition. -/
theorem frameReadsOutside :
    (rowsRead .aggregate (some (.rows,⟨.nPrec,3⟩,⟨.nPrec,2⟩)) 1 (0 : Nat) (1 : Nat) = [0] ∧
        wanted .aggregate (frameOf ⟨.nPrec,3⟩ ⟨.nPrec,2⟩ (0 : Nat) 1) = []) ∧
      (rowsRead .lastValue (some (.rows,⟨.nFoll,1⟩,⟨.unboundedFoll,0⟩)) 1 (0 : Nat) (1 : Nat) = [0] ∧
        wanted .lastValue (frameOf ⟨.nFoll,1⟩ ⟨.unboundedFoll,0⟩ (0 : Nat) 1) = []) ∧
      (rowsRead .firstValue (some (.rows,⟨.nFoll,1⟩,⟨.unboundedFoll,0⟩)) 1 (0 : Nat) (1 : Nat) = [1] ∧
        wanted .firstValue (frameOf ⟨.nFoll,1⟩ ⟨.unboundedFoll,0⟩ (0 : Nat) 1) = []) := by
  decide

end
end Napastak.Window
