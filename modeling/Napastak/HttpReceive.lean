import Napastak.HttpBlock

/-! The read loop over every way the bytes of a request may arrive. -/
namespace Napastak.Http
open Auth (strstr)
open Store (cstr cstrSelf)

/-! ### The buffer -/

theorem capLe (n : Nat) : n ≤ capFor n :=
  (Nat.le_pow_clog (by decide) n).trans (Nat.pow_le_pow_right (by decide) (Nat.le_max_right ..))

theorem capMono {m n : Nat} (le : m ≤ n) : capFor m ≤ capFor n :=
  Nat.pow_le_pow_right (by decide) (Nat.max_le.mpr ⟨Nat.le_max_left ..,(Nat.clog_mono_right 2 le).trans (Nat.le_max_right ..)⟩)

theorem capLeast {n k : Nat} (seventeen : 17 ≤ k) (le : n ≤ 2 ^ k) : capFor n ≤ 2 ^ k :=
  Nat.pow_le_pow_right (by decide) (Nat.max_le.mpr ⟨seventeen,Nat.clog_le_of_le_pow le⟩)

theorem capMax {n : Nat} (le : n ≤ maxReqSize) : capFor n ≤ maxReqSize := capLeast (k := 28) (by decide) le

/-- A chunk that fits leaves the size as it is. -/
theorem capSame {m n : Nat} (lo : m ≤ n) (hi : n ≤ capFor m) : capFor n = capFor m :=
  Nat.le_antisymm (capLeast (Nat.le_max_left ..) hi) (capMono lo)

/-- A buffer that is full when it has `n` bytes is twice as large with one more. -/
theorem capNext {n : Nat} (full : n = capFor n) : capFor (n + 1) = n * 2 := by
  have power : n = 2 ^ max 17 (Nat.clog 2 n) := full
  have double : n * 2 = 2 ^ (max 17 (Nat.clog 2 n) + 1) := by rw [Nat.pow_succ,← power]
  apply Nat.le_antisymm
  · rw [double]
    refine capLeast (Nat.le_succ_of_le (Nat.le_max_left ..)) ?_
    have pos : 0 < n := by rw [power]; exact Nat.pow_pos (by decide)
    rw [← double]
    omega
  · have more : 2 ^ max 17 (Nat.clog 2 n) < 2 ^ max 17 (Nat.clog 2 (n + 1)) := by
      rw [← power]
      exact Nat.lt_of_lt_of_le (Nat.lt_succ_self n) (capLe (n + 1))
    rw [double]
    exact Nat.pow_le_pow_right (by decide) ((Nat.pow_lt_pow_iff_right (by decide)).mp more)

/-- The connection with these bytes in its buffer. -/
def holding (buf : Bytes) (want : Option Nat) : Conn := ⟨capFor buf.length,buf,want⟩

theorem freshHolds : fresh = holding [] none := rfl

theorem growRoom {buf : Bytes} {want : Option Nat} (small : buf.length < maxReqSize) :
    (holding buf want).grow = some {holding buf want with cap := capFor (buf.length + 1)} := by
  have room := capMax (n := buf.length + 1) small
  rw [Conn.grow]
  by_cases full : buf.length = capFor buf.length
  · have next := capNext full
    have twice : capFor buf.length * 2 = capFor (buf.length + 1) := by rw [next,← full]
    refine (if_pos full).trans ((if_neg (Nat.not_le.mpr (show capFor buf.length < maxReqSize from full ▸ small))).trans ?_)
    show some (Conn.mk (min (capFor buf.length * 2) maxReqSize) buf want) = _
    rw [twice,Nat.min_eq_left room]
    rfl
  · have less : buf.length + 1 ≤ capFor buf.length := Nat.lt_of_le_of_ne (capLe _) full
    refine (if_neg full).trans ?_
    rw [capSame (Nat.le_succ _) less]
    rfl

/-- The loop's body behind `recv`. -/
def received (buf : Bytes) (want : Option Nat) (chunks : List Bytes) : Option Received :=
  match want with
  | some want => if want ≤ buf.length then some (.request buf) else readLoop (holding buf (some want)) chunks
  | none => match wantTotal buf with
    | none => readLoop (holding buf none) chunks
    | some want =>
      if maxReqSize < want then some .closed
      else if want ≤ buf.length then some (.request buf)
      else readLoop (holding buf (some want)) chunks

variable {buf chunk : Bytes} {want : Option Nat} {chunks : List Bytes}

theorem readChunk (small : buf.length < maxReqSize) (some_ : chunk ≠ [])
    (fits : buf.length + chunk.length ≤ capFor (buf.length + 1)) :
    readLoop (holding buf want) (chunk :: chunks) = received (buf ++ chunk) want chunks := by
  have one : 1 ≤ chunk.length := List.length_pos_iff.mpr some_
  have cap : capFor (buf.length + 1) = capFor (buf ++ chunk).length := by
    rw [List.length_append]
    exact (capSame (Nat.add_le_add_left one _) fits).symm
  have ok : ¬ (chunk = [] ∨ capFor (buf.length + 1) < buf.length + chunk.length) := fun bad => bad.elim some_ (Nat.not_lt.mpr fits)
  have same : ∀ w, Conn.mk (capFor (buf.length + 1)) (buf ++ chunk) w = holding (buf ++ chunk) w := fun w => by rw [cap]; rfl
  rw [readLoop,growRoom small]
  refine (if_neg ok).trans ?_
  simp only [received,← same]
  cases want <;> rfl

theorem readRefuses (small : buf.length < maxReqSize) {got : Received}
    (read : readLoop (holding buf want) (chunk :: chunks) = some got) :
    chunk ≠ [] ∧ buf.length + chunk.length ≤ capFor (buf.length + 1) := by
  by_contra not
  have bad : chunk = [] ∨ capFor (buf.length + 1) < buf.length + chunk.length := by
    by_contra neither
    rw [not_or,Nat.not_lt] at neither
    exact not neither
  rw [readLoop,growRoom small] at read
  cases (if_pos bad).symm.trans read

theorem readFull (full : buf.length = maxReqSize) : readLoop (holding buf want) (chunk :: chunks) = some .closed := by
  have cap : capFor buf.length = maxReqSize := Nat.le_antisymm (capMax full.le) (full ▸ capLe _)
  have same : buf.length = capFor buf.length := full.trans cap.symm
  have none_ : (holding buf want).grow = none := by
    exact (if_pos same).trans (if_pos (Nat.le_of_eq cap.symm))
  rw [readLoop,none_]

/-! ### Any chunks -/

theorem headText (r : Request) : r.head <+: r.text := ⟨r.body,rfl⟩

theorem totalWanted (r : Request) (z : Bytes) (noCrlf : r.crlf = false → ¬ crlfCrlf <:+: cstr (r.head ++ z))
    (few : r.body = [] → z.length ≤ 13) : wantTotal (r.head ++ z) = some r.text.length := by
  have counted := r.counted
  rw [Parts.text,List.length_append] at counted
  rw [wantTotal,headerFound r z noCrlf,lengthFound r z few,Option.map_some,Nat.mod_eq_of_lt counted,Parts.text,List.length_append]

/-- Where the loop stands: before the end of the headers, or waiting for the whole request. -/
def Underway (r : Parts) (buf : Bytes) (want : Option Nat) : Prop :=
  want = none ∧ buf.length < r.head.length ∨ want = some r.text.length

theorem prefixTake {x y z : Bytes} (pre : x <+: y ++ z) (less : x.length ≤ y.length) : x <+: y :=
  List.prefix_of_prefix_length_le pre (List.prefix_append y z) less

theorem cstrPrefix {x y : Bytes} (pre : x <+: y) : cstr x <+: cstr y := by
  obtain ⟨z,rfl⟩ := pre
  by_cases nul : 0 ∈ x
  · obtain ⟨a,b,rfl,noNul⟩ := List.eq_append_cons_of_mem nul
    rw [cstrAppend noNul,List.append_assoc,cstrAppend noNul]
    exact List.prefix_append_right_inj _ |>.mpr (List.prefix_refl _)
  · rw [cstrAppend nul,cstrSelf nul]
    exact List.prefix_append ..

theorem infixNul {x : Bytes} (n : Bytes) {pre : Bytes} (short : pre <+: x) (here : n <:+: cstr pre) : n <:+: cstr x :=
  here.trans (cstrPrefix short).isInfix

/-- The request, with what of the spill arrived together with its end. -/
theorem readRequest (r : Request) {rest : Bytes} (clean : Clean r.toParts rest) {got : Received}
    (less : buf.length < r.text.length) (underway : Underway r.toParts buf want) (all : buf ++ chunks.flatten = r.text ++ rest)
    (read : readLoop (holding buf want) chunks = some got) : ∃ s, s <+: spill r.toParts rest ∧ got = .request (r.text ++ s) := by
  induction chunks generalizing buf want with
  | nil =>
    have lengths := congrArg List.length all
    simp only [List.flatten_nil,List.append_nil,List.length_append] at lengths
    omega
  | cons chunk chunks ih =>
    have small : buf.length < maxReqSize := Nat.lt_of_lt_of_le less clean.fits
    obtain ⟨some_,fits⟩ := readRefuses small read
    rw [readChunk small some_ fits] at read
    have all' : buf ++ chunk ++ chunks.flatten = r.text ++ rest := by rw [← all,List.flatten_cons,List.append_assoc]
    have pre : buf ++ chunk <+: r.text ++ rest := ⟨chunks.flatten,all'⟩
    have bound : (buf ++ chunk).length ≤ capFor r.text.length := by
      rw [List.length_append]
      exact fits.trans (capMono less)
    -- with all of the request the loop ends
    have finish : r.text.length ≤ (buf ++ chunk).length →
        ∃ s, s <+: spill r.toParts rest ∧ Received.request (buf ++ chunk) = .request (r.text ++ s) := fun whole => by
      obtain ⟨s,is⟩ := List.prefix_of_prefix_length_le (List.prefix_append r.text rest) pre whole
      refine ⟨s,?_,by rw [is]⟩
      rw [← is] at pre bound
      rw [List.length_append] at bound
      exact List.prefix_take_iff.mpr ⟨(List.prefix_append_right_inj _).mp pre,by omega⟩
    have next : ∀ want', Underway r.toParts (buf ++ chunk) want' → (buf ++ chunk).length < r.text.length →
        readLoop (holding (buf ++ chunk) want') chunks = some got →
        ∃ s, s <+: spill r.toParts rest ∧ got = .request (r.text ++ s) := fun want' under short again => ih short under all' again
    have waiting : (if r.text.length ≤ (buf ++ chunk).length then some (Received.request (buf ++ chunk))
        else readLoop (holding (buf ++ chunk) (some r.text.length)) chunks) = some got →
        ∃ s, s <+: spill r.toParts rest ∧ got = .request (r.text ++ s) := fun read => by
      by_cases whole : r.text.length ≤ (buf ++ chunk).length
      · rw [if_pos whole] at read
        cases read
        exact finish whole
      · rw [if_neg whole] at read
        exact next _ (Or.inr rfl) (Nat.not_le.mp whole) read
    rcases underway with ⟨rfl,before⟩ | rfl
    · by_cases short : (buf ++ chunk).length < r.head.length
      · have inHead : buf ++ chunk <+: r.head := prefixTake (pre.trans (by rw [Parts.text,List.append_assoc])) short.le
        have none_ : wantTotal (buf ++ chunk) = none := by rw [wantTotal,headerUnfinished r inHead short]; rfl
        simp only [received,none_] at read
        exact next none (Or.inl ⟨rfl,short⟩) (short.trans_le (headText r).length_le) read
      · obtain ⟨z,is⟩ := List.prefix_of_prefix_length_le ((headText r).trans (List.prefix_append _ rest)) pre (Nat.not_lt.mp short)
        have limit : (buf ++ chunk).length ≤ capFor r.head.length := by
          rw [List.length_append]
          exact fits.trans (capMono before)
        -- all that may have come behind a request without a body is one LF
        have behind : r.body = [] → z <+: spill r.toParts rest := fun empty => by
          have same : r.text = r.head := by rw [Parts.text,empty,List.append_nil]
          obtain ⟨s,inside,both⟩ := finish (by rw [same]; exact Nat.not_lt.mp short)
          have z_s : z = s := by
            have both := Received.request.inj both
            rw [← is,same] at both
            exact List.append_cancel_left both
          rwa [z_s]
        have total : wantTotal (buf ++ chunk) = some r.text.length := by
          rw [← is]
          refine totalWanted r z (fun lf inside => ?_) fun empty => ?_
          · by_cases whole : (buf ++ chunk).length ≤ r.text.length
            · have inText := List.prefix_take_iff.mpr ⟨prefixTake pre whole,limit⟩
              exact (clean.bare lf).2 (infixNul _ inText (is ▸ inside))
            · rcases clean.alone with none_ | ⟨_,empty,one⟩
              · obtain ⟨s,shorter,both⟩ := finish (Nat.le_of_not_le whole)
                rw [none_,List.prefix_nil] at shorter
                rw [Received.request.inj both,shorter,List.append_nil] at whole
                exact whole (Nat.le_refl _)
              · have shorter := (behind empty).length_le
                rw [one] at shorter
                exact noCrlfYet r lf (shorter.trans (by decide)) inside
          · have shorter := (behind empty).length_le
            rcases clean.alone with none_ | ⟨_,_,one⟩
            · rw [none_] at shorter
              exact shorter.trans (by decide)
            · rw [one] at shorter
              exact shorter.trans (by decide)
        simp only [received,total,if_neg (Nat.not_lt.mpr clean.fits)] at read
        exact waiting read
    · exact waiting read

theorem cleanHandsOver (r : Request) {rest : Bytes} (clean : Clean r.toParts rest) : HandsOver r.toParts rest := by
  intro chunks got all read
  have begin_ : (0 : Nat) < r.head.length := Nat.lt_of_le_of_lt (Nat.zero_le _) (blockLength r.toParts (r.requestLine :: r.lines))
  rw [freshHolds] at read
  obtain ⟨s,inside,rfl⟩ := @readRequest [] _ _ r _ clean _ (begin_.trans_le (headText r).length_le) (Or.inl ⟨rfl,begin_⟩) all read
  have body : r.afterBlank (r.body ++ s) = r.body := by
    rw [Parts.afterBlank]
    rcases clean.alone with none_ | ⟨lf,empty,one⟩
    · rw [none_,List.prefix_nil] at inside
      rw [inside,List.append_nil]
      cases crlf : r.crlf with
      | true => rfl
      | false =>
        have first := (clean.bare crlf).1
        simp only [Bool.false_eq_true,if_false]
        unfold dropLf
        split
        · rename_i is; rw [is] at first; exact absurd rfl first
        · rfl
    · rw [one] at inside
      rw [lf,empty]
      rcases List.prefix_cons_iff.mp inside with rfl | ⟨t,rfl,nil⟩
      · rfl
      · rw [List.prefix_nil.mp nil]
        rfl
  rw [handed,Parts.text,List.append_assoc,requestParsed r clean.colons,body]
  rfl

/-! ### Chunks of one byte -/

def singles (x : Bytes) : List Bytes := x.map fun c => [c]

theorem singlesFlatten (x : Bytes) : (singles x).flatten = x := by
  induction x with
  | nil => rfl
  | cons c x ih => exact congrArg (c :: ·) ih

theorem readSingle (small : buf.length < maxReqSize) (c : UInt8) :
    readLoop (holding buf want) ([c] :: chunks) = received (buf ++ [c]) want chunks :=
  readChunk small (List.cons_ne_nil _ _) (by rw [List.length_singleton]; exact capLe _)

theorem roomBefore {n : Nat} {c : UInt8} (fits : (buf ++ [c]).length ≤ n) : buf.length < n := by
  rwa [List.length_append,List.length_singleton] at fits

theorem singlesHead (r : Request) {y : Bytes} (pre : buf ++ y <+: r.head) (less : (buf ++ y).length < r.head.length)
    (fits : (buf ++ y).length ≤ maxReqSize) :
    readLoop (holding buf none) (singles y ++ chunks) = readLoop (holding (buf ++ y) none) chunks := by
  induction y generalizing buf with
  | nil => rw [List.append_nil]; rfl
  | cons c y ih =>
    have step : buf ++ c :: y = buf ++ [c] ++ y := by rw [List.append_assoc]; rfl
    rw [step] at pre less fits ⊢
    have part : buf ++ [c] <+: r.head := (List.prefix_append ..).trans pre
    have lengths : (buf ++ [c]).length ≤ (buf ++ [c] ++ y).length := (List.prefix_append ..).length_le
    have none_ : wantTotal (buf ++ [c]) = none := by
      rw [wantTotal,headerUnfinished r part (Nat.lt_of_le_of_lt lengths less)]
      rfl
    have small := roomBefore (lengths.trans fits)
    rw [singles,List.map_cons,List.cons_append,readSingle small]
    simp only [received,none_]
    exact ih pre less fits

theorem singlesBody {n : Nat} {y : Bytes} (less : (buf ++ y).length < n) (fits : (buf ++ y).length ≤ maxReqSize) :
    readLoop (holding buf (some n)) (singles y ++ chunks) = readLoop (holding (buf ++ y) (some n)) chunks := by
  induction y generalizing buf with
  | nil => rw [List.append_nil]; rfl
  | cons c y ih =>
    have step : buf ++ c :: y = buf ++ [c] ++ y := by rw [List.append_assoc]; rfl
    rw [step] at less fits ⊢
    have lengths : (buf ++ [c]).length ≤ (buf ++ [c] ++ y).length := (List.prefix_append ..).length_le
    have small := roomBefore (lengths.trans fits)
    rw [singles,List.map_cons,List.cons_append,readSingle small]
    simp only [received,if_neg (Nat.not_le.mpr (Nat.lt_of_le_of_lt lengths less))]
    exact ih less fits

theorem dropLastLess {x : Bytes} (some_ : x ≠ []) : x.dropLast.length < x.length := by
  have pos := List.length_pos_iff.mpr some_
  rw [List.length_dropLast]
  omega

theorem headSome (r : Parts) : r.head ≠ [] :=
  List.ne_nil_of_length_pos (Nat.lt_of_le_of_lt (Nat.zero_le _) (blockLength r (r.requestLine :: r.lines)))

/-- One byte before the end of the headers. -/
theorem reachHead (r : Request) (fits : r.head.length ≤ maxReqSize) :
    readLoop fresh (singles r.head.dropLast ++ chunks) = readLoop (holding r.head.dropLast none) chunks := by
  rw [freshHolds]
  exact @singlesHead [] _ r _ (List.dropLast_prefix _) (dropLastLess (headSome r.toParts))
    ((List.dropLast_prefix _).length_le.trans fits)

theorem lastHead (r : Request) : r.head.dropLast ++ [r.head.getLast (headSome r.toParts)] = r.head :=
  List.dropLast_append_getLast (headSome r.toParts)

theorem headTotal (r : Request) : wantTotal r.head = some r.text.length := by
  have total := totalWanted r [] (fun lf => noCrlfYet r lf (by decide)) fun _ => by decide
  rwa [List.append_nil] at total

theorem headSmall (r : Request) (fits : r.head.length ≤ maxReqSize) : r.head.dropLast.length < maxReqSize :=
  Nat.lt_of_lt_of_le (dropLastLess (headSome r.toParts)) fits

/-- A request that is too large is not read. -/
theorem tooLarge (r : Request) (rest : Bytes) (large : maxReqSize < r.text.length) :
    readLoop fresh (singles (r.text ++ rest)) = some .closed := by
  have whole : r.text ++ rest = r.head ++ (r.body ++ rest) := List.append_assoc ..
  by_cases fits : r.head.length ≤ maxReqSize
  · have split : singles (r.text ++ rest) =
        singles r.head.dropLast ++ ([r.head.getLast (headSome r.toParts)] :: singles (r.body ++ rest)) := by
      conv => lhs; rw [whole,← lastHead r]
      simp [singles]
    rw [split,reachHead r fits,readSingle (headSmall r fits),lastHead]
    simp only [received,headTotal,if_pos large]
  · have short := Nat.not_le.mp fits
    have first : r.head.take maxReqSize <+: r.head := List.take_prefix ..
    have length : (r.head.take maxReqSize).length = maxReqSize := List.length_take_of_le short.le
    cases after : r.head.drop maxReqSize with
    | nil => exact absurd (List.drop_eq_nil_iff.mp after) (Nat.not_le.mpr short)
    | cons c more =>
      have split : singles (r.text ++ rest) =
          singles (r.head.take maxReqSize) ++ ([c] :: singles (more ++ (r.body ++ rest))) := by
        conv => lhs; rw [whole,← List.take_append_drop maxReqSize r.head,after]
        simp [singles]
      rw [split,freshHolds,@singlesHead [] _ r _ first (length.trans_lt short) length.le]
      exact readFull length

/-- Some chunks bring the end of the request with the given bytes of what follows, at most two. -/
theorem readSpill (r : Request) {rest s : Bytes} (fits : r.text.length ≤ maxReqSize) (inside : s <+: spill r.toParts rest)
    (few : s.length ≤ 2) : ∃ chunks, chunks.flatten = r.text ++ rest ∧ readLoop fresh chunks = some (.request (r.text ++ s)) := by
  have room : r.text.length + s.length ≤ capFor r.text.length := by
    have bound := inside.length_le
    rw [spill,List.length_take] at bound
    have := capLe r.text.length
    omega
  obtain ⟨more,split⟩ := inside.trans (List.take_prefix ..)
  have headFits : r.head.length ≤ maxReqSize := (headText r).length_le.trans fits
  cases empty : r.body with
  | nil =>
    have same : r.text = r.head := by rw [Parts.text,empty,List.append_nil]
    refine ⟨singles r.head.dropLast ++ [r.head.getLast (headSome r.toParts) :: s,more],?_,?_⟩
    · rw [List.flatten_append,singlesFlatten,← split,same]
      conv => rhs; rw [← lastHead r]
      simp
    · have length : r.head.dropLast.length + 1 = r.head.length := by
        rw [List.length_dropLast]
        have := List.length_pos_iff.mpr (headSome r.toParts)
        omega
      have joined : r.head.dropLast ++ (r.head.getLast (headSome r.toParts) :: s) = r.head ++ s := by
        conv => rhs; rw [← lastHead r]
        simp
      rw [same] at room
      rw [reachHead r headFits,readChunk (headSmall r headFits) (List.cons_ne_nil _ _)
        (by rw [length,List.length_cons]; omega),joined]
      have total := totalWanted r s (fun lf => noCrlfYet r lf few) fun _ => few.trans (by decide)
      simp only [received,total,if_neg (Nat.not_lt.mpr fits)]
      rw [if_pos (by rw [same,List.length_append]; omega),same]
  | cons b body =>
    have some_ : r.body ≠ [] := by rw [empty]; exact List.cons_ne_nil _ _
    have cut : r.head ++ r.body.dropLast ++ [r.body.getLast some_] = r.text := by
      rw [List.append_assoc,List.dropLast_append_getLast some_]
      rfl
    have length := congrArg List.length cut
    rw [List.length_append,List.length_singleton] at length
    refine ⟨singles r.head.dropLast ++ ([r.head.getLast (headSome r.toParts)] ::
      (singles r.body.dropLast ++ [r.body.getLast some_ :: s,more])),?_,?_⟩
    · rw [List.flatten_append,List.flatten_cons,List.flatten_append,singlesFlatten,singlesFlatten,← List.append_assoc,lastHead,← split,
        ← cut]
      simp
    · have less : (r.head ++ r.body.dropLast).length < r.text.length := by omega
      have first : r.head.length < r.text.length := by
        rw [List.length_append] at less
        omega
      rw [reachHead r headFits,readSingle (headSmall r headFits),lastHead]
      simp only [received,headTotal,if_neg (Nat.not_lt.mpr fits),if_neg (Nat.not_le.mpr first)]
      rw [singlesBody less (less.le.trans fits),readChunk (less.trans_le fits) (List.cons_ne_nil _ _)
        (by rw [length,List.length_cons]; omega)]
      have joined : r.head ++ r.body.dropLast ++ (r.body.getLast some_ :: s) = r.text ++ s := by
        rw [← cut]
        simp
      rw [joined]
      simp only [received]
      rw [if_pos (by rw [List.length_append]; omega)]

/-- With a blank line of CRLFs behind the headers, some chunks make the loop wait for more than the request. -/
theorem readLate (r : Request) (rest : Bytes) (fits : r.text.length ≤ maxReqSize) (lf : r.crlf = false)
    (crlf : crlfCrlf <:+: cstr (r.text.take (capFor r.head.length))) :
    ∃ chunks got, chunks.flatten = r.text ++ rest ∧ readLoop fresh chunks = some got ∧
      (got = .closed ∨ ∃ s, s ≠ [] ∧ s <+: rest ∧ got = .request (r.text ++ s)) := by
  have headFits : r.head.length ≤ maxReqSize := (headText r).length_le.trans fits
  have length : r.head.dropLast.length + 1 = r.head.length := by
    rw [List.length_dropLast]
    have := List.length_pos_iff.mpr (headSome r.toParts)
    omega
  obtain ⟨z,early⟩ : r.head <+: r.text.take (capFor r.head.length) := List.prefix_take_iff.mpr ⟨headText r,capLe _⟩
  have arrived : r.head ++ z <+: r.text := early ▸ List.take_prefix ..
  obtain ⟨later,split⟩ := arrived
  rw [← early] at crlf
  obtain ⟨m,found,more,inside⟩ := headerLate r z lf crlf
  have bodyIs : z ++ later = r.body := by
    rw [Parts.text,List.append_assoc] at split
    exact List.append_cancel_left split
  have length' : contentLength (r.head ++ z) = r.body.length := lengthFound r z fun empty => by
    rw [empty] at bodyIs
    rw [(List.append_eq_nil_iff.mp bodyIs).1]
    decide
  have bound : (r.head ++ z).length ≤ r.text.length := by rw [← split,@List.length_append _ (r.head ++ z)]; omega
  have sizes : r.text.length = r.head.length + r.body.length := List.length_append
  have max : maxReqSize = 268435456 := rfl
  have total : wantTotal (r.head ++ z) = some (m + r.body.length) := by
    rw [wantTotal,found,length',Option.map_some,Nat.mod_eq_of_lt (by omega)]
  have joined : r.head.dropLast ++ (r.head.getLast (headSome r.toParts) :: z) = r.head ++ z := by
    conv => rhs; rw [← lastHead r]
    simp
  have room : r.head.dropLast.length + (r.head.getLast (headSome r.toParts) :: z).length ≤ capFor (r.head.dropLast.length + 1) := by
    have taken := congrArg List.length early
    rw [List.length_take,List.length_append] at taken
    rw [length,List.length_cons]
    omega
  have read : ∀ chunks, readLoop fresh (singles r.head.dropLast ++ (r.head.getLast (headSome r.toParts) :: z) :: chunks) =
      if maxReqSize < m + r.body.length then some .closed
      else readLoop (holding (r.head ++ z) (some (m + r.body.length))) chunks := fun chunks => by
    rw [reachHead r headFits,readChunk (headSmall r headFits) (List.cons_ne_nil _ _) room,joined]
    simp only [received,total]
    rw [if_neg (show ¬ m + r.body.length ≤ (r.head ++ z).length by omega)]
  have flat : (singles r.head.dropLast ++ (r.head.getLast (headSome r.toParts) :: z) :: singles (later ++ rest)).flatten =
      r.text ++ rest := by
    rw [List.flatten_append,List.flatten_cons,singlesFlatten,singlesFlatten,← List.append_assoc,joined,← split]
    simp
  by_cases large : maxReqSize < m + r.body.length
  · exact ⟨_,_,flat,by rw [read,if_pos large],Or.inl rfl⟩
  by_cases short : (r.text ++ rest).length < m + r.body.length
  · refine ⟨_,_,flat,?_,Or.inl rfl⟩
    have all : (r.head ++ z ++ (later ++ rest)) = r.text ++ rest := by rw [← List.append_assoc,split]
    rw [read,if_neg large,← List.append_nil (singles (later ++ rest)),singlesBody (by rw [all]; exact short) (by rw [all]; omega)]
    rfl
  · -- the loop goes on into what follows the request
    have surplus : r.text.length < m + r.body.length := by omega
    rw [List.length_append] at short
    have k : m + r.body.length - r.text.length - 1 < rest.length := by omega
    obtain ⟨c,after,cut⟩ : ∃ c after, rest.drop (m + r.body.length - r.text.length - 1) = c :: after :=
      List.exists_cons_of_ne_nil fun is => absurd (List.drop_eq_nil_iff.mp is) (Nat.not_le.mpr k)
    have restIs : rest = rest.take (m + r.body.length - r.text.length - 1) ++ c :: after := by rw [← cut,List.take_append_drop]
    have all : r.head ++ z ++ (later ++ rest.take (m + r.body.length - r.text.length - 1)) =
        r.text ++ rest.take (m + r.body.length - r.text.length - 1) := by rw [← List.append_assoc,split]
    have lengths : (r.text ++ rest.take (m + r.body.length - r.text.length - 1)).length = m + r.body.length - 1 := by
      rw [List.length_append,List.length_take]
      omega
    refine ⟨_,_,flat,?_,Or.inr ⟨rest.take (m + r.body.length - r.text.length - 1) ++ [c],by simp,?_,rfl⟩⟩
    · have pieces : singles (later ++ rest) =
          singles (later ++ rest.take (m + r.body.length - r.text.length - 1)) ++ ([c] :: singles after) := by
        conv => lhs; rw [restIs]
        simp [singles]
      rw [read,if_neg large,pieces,singlesBody (by rw [all,lengths]; omega) (by rw [all,lengths]; omega),all,
        readSingle (by rw [lengths]; omega)]
      simp only [received]
      rw [if_pos (by rw [List.length_append,lengths,List.length_singleton]; omega),List.append_assoc]
    · exact ⟨after,by rw [List.append_assoc,List.singleton_append,← restIs]⟩

/-! ### Exactly when -/

theorem handedBody (r : Request) (colons : ∀ l ∈ r.lines, 58 ∈ l) {z : Bytes}
    (same : handed (.request (r.head ++ z)) = some r.handed) : r.afterBlank z = r.body := by
  rw [handed,requestParsed r colons,Option.map_some,Option.some.injEq] at same
  exact congrArg (fun p => p.1.body) same

theorem dropLfOther {z : Bytes} (other : z.head? ≠ some 10) : dropLf z = z := by
  unfold dropLf
  split
  · exact absurd rfl other
  · rfl

theorem handsOverClean (r : Request) {rest : Bytes} (always : HandsOver r.toParts rest) : Clean r.toParts rest := by
  have fits : r.text.length ≤ maxReqSize := by
    by_contra large
    have closed := always _ _ (singlesFlatten _) (tooLarge r rest (Nat.not_le.mp large))
    cases closed
  have spilled : ∀ s, s <+: spill r.toParts rest → s.length ≤ 2 → handed (.request (r.text ++ s)) = some r.handed :=
    fun s inside few => by
      obtain ⟨chunks,all,read⟩ := readSpill r fits inside few
      exact always chunks _ all read
  have colons : ∀ l ∈ r.lines, 58 ∈ l := fun l mem => by
    by_contra noColon
    have whole := spilled [] List.nil_prefix (by decide)
    rw [List.append_nil] at whole
    exact requestGarbled r mem noColon whole
  have bodies : ∀ s, s <+: spill r.toParts rest → s.length ≤ 2 → r.afterBlank (r.body ++ s) = r.body := fun s inside few =>
    handedBody r colons (by rw [← List.append_assoc]; exact spilled s inside few)
  have first : r.crlf = false → r.body.head? ≠ some 10 := fun lf lfFirst => by
    have whole := bodies [] List.nil_prefix (by decide)
    obtain ⟨more,is⟩ := List.head?_eq_some_iff.mp lfFirst
    rw [Parts.afterBlank,lf,List.append_nil,is] at whole
    exact absurd (congrArg List.length (show more = 10 :: more from whole)) (by simp)
  refine ⟨fits,?_,colons,fun lf => ⟨first lf,fun crlf => ?_⟩⟩
  · cases extra : spill r.toParts rest with
    | nil => exact Or.inl rfl
    | cons c more =>
      have one := bodies [c] (by rw [extra]; exact ⟨more,rfl⟩) (Nat.le_succ 1)
      rcases r.eolCases with ⟨crlf,_⟩ | ⟨lf,_⟩
      · rw [Parts.afterBlank,crlf] at one
        exact absurd (congrArg List.length (show r.body ++ [c] = r.body from one)) (by simp)
      · have drop : ∀ s, r.afterBlank s = dropLf s := fun s => by rw [Parts.afterBlank,lf]; rfl
        rw [drop] at one
        cases empty : r.body with
        | cons b body =>
          have other : (r.body ++ [c]).head? ≠ some 10 := by
            have own := first lf
            rw [empty] at own ⊢
            exact own
          rw [dropLfOther other] at one
          exact absurd (congrArg List.length one) (by simp)
        | nil =>
          rw [empty,List.nil_append] at one
          have c10 : c = 10 := by
            by_contra other
            rw [dropLfOther (by simpa using other)] at one
            cases one
          subst c10
          cases more with
          | nil => exact Or.inr ⟨lf,rfl,rfl⟩
          | cons d more =>
            have two := bodies [10, d] (by rw [extra]; exact ⟨more,rfl⟩) (Nat.le_refl 2)
            rw [drop,empty] at two
            cases two
  · obtain ⟨chunks,got,all,read,late⟩ := readLate r rest fits lf crlf
    have same := always chunks got all read
    rcases late with rfl | ⟨s,some_,_,rfl⟩
    · cases same
    · rw [Parts.text,List.append_assoc] at same
      have body := handedBody r colons same
      rw [Parts.afterBlank,lf] at body
      have filled : r.body ≠ [] := fun empty => by
        have bare : r.text = r.head := by rw [Parts.text,empty,List.append_nil]
        have cr : (13 : UInt8) ∈ r.head := by
          have mem := (List.takeWhile_prefix _).subset (crlf.subset (show (13 : UInt8) ∈ crlfCrlf by decide))
          exact bare ▸ (List.take_prefix ..).subset mem
        exact r.headNoCr lf cr
      have other : (r.body ++ s).head? ≠ some 10 := by
        rw [List.head?_append_of_ne_nil _ filled]
        exact first lf
      have longer := congrArg List.length ((dropLfOther other).symm.trans body)
      rw [List.length_append] at longer
      exact some_ (List.length_eq_zero_iff.mp (by omega))

/-- The handler is given the request for every way its bytes and those after it arrive exactly when the request is
clean. -/
theorem handsOverIff (r : Request) (rest : Bytes) : HandsOver r.toParts rest ↔ Clean r.toParts rest :=
  ⟨handsOverClean r,cleanHandsOver r⟩

/-- `GET /a HTTP/1.1` with a body of two bytes. -/
def getA : Request where
  crlf := true
  method := ascii "GET"
  path := ascii "/a"
  version := ascii "HTTP/1.1"
  lines := [ascii "Host: x", ascii "Content-Length: 2"]
  body := ascii "ok"
  methodPlain := by decide +kernel
  pathPlain := by decide +kernel
  versionPlain := by decide +kernel
  linesPlain := by decide +kernel
  sized l mem starts := by
    rcases List.mem_cons.mp mem with rfl | mem
    · exact absurd starts (by decide)
    · rw [List.mem_singleton.mp mem]
      exact ⟨1,ascii "2",0,by decide,by decide,by decide +kernel,by decide⟩
  unsized none_ := absurd (none_ _ (List.mem_cons_of_mem _ (List.mem_singleton_self _))) (by decide)
  counted := by decide

example : HandsOver getA.toParts [] :=
  cleanHandsOver getA ⟨by decide,Or.inl rfl,by decide,fun lf => by cases lf⟩

/-- One byte of the next request in the chunk that ends this one. -/
theorem nextRequestInBody : ¬ HandsOver getA.toParts (ascii "G") := by
  intro always
  have read : readLoop fresh [getA.text ++ ascii "G"] = some (.request (getA.text ++ ascii "G")) := by decide
  have same := always [getA.text ++ ascii "G"] _ (List.append_nil _) read
  exact absurd same (by decide)

end Napastak.Http
