import Napastak.PgWire

/-! Which byte streams keep every access of a connection inside its buffers: the start-up message has to fit
the buffer on the stack, and a Simple Query has to end in a NUL. No other message can leave its body. -/
namespace Napastak.PgWire
open Store (cstr)

variable {α β : Type}

/-- No access was out of bounds. -/
def Fine (x : Except Fault α) : Prop := ∃ a, x = .ok a

theorem Fine.ok (a : α) : Fine (.ok a) := ⟨a,rfl⟩

theorem Fine.bind {x : Except Fault α} {f : α → Except Fault β} (h : Fine x) (later : ∀ a, Fine (f a)) : Fine (x >>= f) := by
  obtain ⟨a,rfl⟩ := h
  exact later a

theorem bindOk {a : α} {f : α → Except Fault β} : (Except.ok a >>= f) = f a := rfl

theorem bindGives {x : Except Fault α} {f : α → Except Fault β} {r : β} (did : (x >>= f) = .ok r) : ∃ a, x = .ok a ∧ f a = .ok r := by
  cases x with
  | error e => cases did
  | ok a => exact ⟨a,rfl,did⟩

theorem notFine (e : Fault) : ¬ Fine (.error e : Except Fault α) := nofun

/-! ### The readers -/

variable {buf body : Bytes} {len off : Nat}

theorem rdFine {i : Nat} (h : i < buf.length) : Fine (rd buf i) := by
  rw [rd,List.getElem?_eq_getElem h]
  exact .ok _

theorem be32Fine {i : Nat} (h : i + 4 ≤ buf.length) : Fine (be32 buf i) :=
  (rdFine (by omega)).bind fun _ => (rdFine (by omega)).bind fun _ => (rdFine (by omega)).bind fun _ =>
    (rdFine (by omega)).bind fun _ => .ok _

theorem scanFine {stop : Nat} (h : stop ≤ buf.length) : ∀ fuel p, Fine (scan buf stop fuel p)
  | 0, _ => .ok _
  | fuel + 1, p => by
    rw [scan]
    split
    · refine (rdFine (by omega)).bind fun _ => ?_
      split
      · exact scanFine h fuel (p + 1)
      · exact .ok _
    · exact .ok _

theorem xqCstrFine (h : len ≤ buf.length) : Fine (xqCstr buf len off) := by
  rw [xqCstr]
  split
  · exact .ok _
  · exact (scanFine h _ _).bind fun _ => .ok _

theorem xqInt16Fine (h : len ≤ buf.length) : Fine (xqInt16 buf len off) := by
  rw [xqInt16]
  split
  · exact .ok _
  · exact (rdFine (by omega)).bind fun _ => (rdFine (by omega)).bind fun _ => .ok _

theorem xqInt32Fine (h : len ≤ buf.length) : Fine (xqInt32 buf len off) := by
  rw [xqInt32]
  split
  · exact .ok _
  · exact (be32Fine (by omega)).bind fun _ => .ok _

/-! ### The bodies -/

theorem decodeParseFine (h : len ≤ body.length) : Fine (decodeParse body len) := by
  refine (xqCstrFine h).bind fun name => ?_
  split
  · exact .ok _
  · refine (xqCstrFine h).bind fun sql => ?_
    split
    · exact .ok _
    · refine (xqInt16Fine h).bind fun _ => ?_
      split <;> exact .ok _

theorem readFormatsFine (h : len ≤ body.length) : ∀ n off, Fine (readFormats body len n off)
  | 0, _ => .ok _
  | n + 1, off => by
    refine (xqInt16Fine h).bind fun _ => ?_
    split
    · exact .ok _
    · refine (readFormatsFine h n _).bind fun _ => ?_
      split <;> exact .ok _

theorem readValuesFine (h : len ≤ body.length) (fmt : Nat → Int) : ∀ n i off, Fine (readValues body len fmt n i off)
  | 0, _, _ => .ok _
  | n + 1, i, off => by
    refine (xqInt32Fine h).bind fun _ => ?_
    split
    · exact .ok _
    split
    · refine (readValuesFine h fmt n _ _).bind fun _ => ?_
      split <;> exact .ok _
    split
    · exact .ok _
    split
    · exact .ok _
    · rename_i room _
      have copy : ∀ off n, off + n ≤ len → Fine (copyBytes body off n) := fun off n le => by
        rw [copyBytes,if_pos (by omega)]
        exact .ok _
      refine (copy _ _ (by omega)).bind fun _ => (readValuesFine h fmt n _ _).bind fun _ => ?_
      split <;> exact .ok _

theorem decodeFormatsFine (h : len ≤ body.length) (nFmt : Int) : Fine (decodeFormats body len nFmt off) := by
  rw [decodeFormats]
  split
  · refine (xqInt16Fine h).bind fun _ => ?_
    split <;> exact .ok _
  · refine (readFormatsFine h _ _).bind fun _ => ?_
    split <;> exact .ok _

theorem decodeBindFine (h : len ≤ body.length) : Fine (decodeBind body len) := by
  refine (xqCstrFine h).bind fun _ => ?_
  split
  · exact .ok _
  refine (xqCstrFine h).bind fun _ => ?_
  split
  · exact .ok _
  refine (xqInt16Fine h).bind fun _ => ?_
  split
  · exact .ok _
  refine (decodeFormatsFine h _).bind fun _ => ?_
  split
  · exact .ok _
  refine (xqInt16Fine h).bind fun _ => ?_
  split
  · exact .ok _
  refine (readValuesFine h _ _ _ _).bind fun _ => ?_
  split
  · exact .ok _
  · exact (xqInt16Fine h).bind fun _ => .ok _

theorem decodeExecuteFine (h : len ≤ body.length) : Fine (decodeExecute body len) := by
  refine (xqCstrFine h).bind fun _ => ?_
  split
  · exact .ok _
  · refine (xqInt32Fine h).bind fun _ => ?_
    split <;> exact .ok _

theorem decodeCloseFine (h : len ≤ body.length) (some_ : 0 < len) : Fine (decodeClose body len) :=
  (rdFine (by omega)).bind fun _ => (xqCstrFine h).bind fun _ => .ok _

/-! ### The handlers -/

variable (env : Env) (c : Conn)

theorem handleParseFine (h : len ≤ body.length) : Fine (handleParse body len c) := by
  refine (decodeParseFine h).bind fun _ => ?_
  split
  · exact .ok _
  · split <;> exact .ok _

theorem handleBindFine (h : len ≤ body.length) : Fine (handleBind body len c) := by
  refine (decodeBindFine h).bind fun _ => ?_
  split
  · exact .ok _
  split
  · exact .ok _
  · split <;> exact .ok _

theorem handleExecuteFine (h : len ≤ body.length) : Fine (handleExecute env body len c) := by
  refine (decodeExecuteFine h).bind fun _ => ?_
  split
  · exact .ok _
  split
  · exact .ok _
  · split <;> exact .ok _

theorem handleCloseFine (h : len ≤ body.length) : Fine (handleClose body len c) := by
  rw [handleClose]
  split
  · exact .ok _
  · refine (decodeCloseFine h (by omega)).bind fun (kind,name) => ?_
    by_cases statement : kind = 83
    · simp only [statement,if_true]
      exact .ok _
    · simp only [statement,if_false]
      split <;> exact .ok _

theorem unlessFailedFine {handle : Except Fault Handled} (h : Fine handle) : Fine (unlessFailed c handle) := by
  rw [unlessFailed]
  split
  · exact .ok _
  · exact h

/-- A Simple Query whose text ends inside its body. -/
def Terminated (m : UInt8 × Bytes) : Prop := m.1 = 81 → m.2 = [] ∨ (0 : UInt8) ∈ m.2

theorem handleQueryFine : Fine (handleQuery env body body.length c) ↔ body = [] ∨ (0 : UInt8) ∈ body := by
  rw [handleQuery,querySql]
  by_cases none_ : body = []
  · refine iff_of_true ?_ (.inl none_)
    rw [none_,if_pos List.length_nil,bindOk]
    split <;> exact .ok _
  · rw [if_neg (fun e => none_ (List.length_eq_zero_iff.mp e))]
    split
    · rename_i nul
      refine iff_of_true ?_ (.inr nul)
      rw [bindOk]
      split <;> exact .ok _
    · rename_i noNul
      exact iff_of_false nofun (not_or.mpr ⟨none_,noNul⟩)

theorem dispatchFine (type : UInt8) : Fine (dispatch env type body body.length c) ↔ Terminated (type,body) := by
  have le : body.length ≤ body.length := Nat.le_refl _
  rw [dispatch]
  split
  · rename_i query
    rw [handleQueryFine,Terminated,imp_iff_right query]
  rename_i query
  refine iff_of_true ?_ fun is => absurd is query
  split
  · exact unlessFailedFine c (handleParseFine c le)
  split
  · exact unlessFailedFine c (handleBindFine c le)
  split
  · exact unlessFailedFine c (.ok _)
  split
  · exact unlessFailedFine c (handleExecuteFine env c le)
  split
  · exact unlessFailedFine c (handleCloseFine c le)
  split
  · exact .ok _
  split
  · exact .ok _
  split <;> exact .ok _

/-! ### Messages of the stream -/

def beNat (a b c d : UInt8) : Nat := a.toNat <<< 24 ||| b.toNat <<< 16 ||| c.toNat <<< 8 ||| d.toNat

/-- The next query-phase message and what follows it. -/
def nextMessage : Bytes → Option (UInt8 × Bytes × Bytes)
  | type :: a :: b :: c :: d :: rest =>
    let l := beNat a b c d
    if l < 4 ∨ l - 4 > bufMax then none
    else if l - 4 ≤ rest.length then some (type,rest.take (l - 4),rest.drop (l - 4)) else none
  | _ => none

/-- The messages the loop takes, so many at most. -/
def messages : Nat → Nat → Bytes → List (UInt8 × Bytes)
  | 0, _, _ => []
  | fuel + 1, turn, stream =>
    if !env.running turn then []
    else
      match nextMessage stream with
      | none => []
      | some (type,body,rest) => if type = 88 then [] else (type,body) :: messages fuel (turn + 1) rest

theorem nextShorter {stream : Bytes} {m : UInt8 × Bytes × Bytes} (is : nextMessage stream = some m) :
    m.2.2.length < stream.length := by
  match stream with
  | [] | [_] | [_,_] | [_,_,_] | [_,_,_,_] => cases is
  | type :: a :: b :: c :: d :: rest =>
    simp only [nextMessage] at is
    split at is
    · cases is
    split at is
    · cases is
      simp only [List.length_drop,List.length_cons]
      omega
    · cases is

/-- Turns beyond the length of the stream find nothing more. -/
theorem messagesEnough (env : Env) {fuel : Nat} (turn : Nat) {stream : Bytes} (enough : stream.length < fuel) :
    messages env (fuel + 1) turn stream = messages env fuel turn stream := by
  induction fuel generalizing turn stream with
  | zero => exact absurd enough (Nat.not_lt_zero _)
  | succ fuel ih =>
    rw [messages,messages]
    cases is : nextMessage stream with
    | none => rfl
    | some m =>
      have shorter := nextShorter is
      simp only
      rw [ih (turn + 1) (Nat.lt_of_lt_of_le shorter (Nat.lt_succ_iff.mp enough))]

theorem readFullFits {n : Nat} (stream : Bytes) {cap : Nat} (room : n ≤ cap) :
    readFull cap n stream = .ok (if n ≤ stream.length then some (stream.take n,stream.drop n) else none) := by
  rw [readFull,if_neg (by omega)]

theorem readMessageIs (stream : Bytes) : readMessage stream = .ok (nextMessage stream) := by
  rw [readMessage,readFullFits stream (Nat.le_refl 5)]
  match stream with
  | [] | [_] | [_,_] | [_,_,_] | [_,_,_,_] => rfl
  | type :: a :: b :: c :: d :: rest =>
    have head : be32 [type,a,b,c,d] 1 = .ok (beNat a b c d) := rfl
    have first : rd [type,a,b,c,d] 0 = .ok type := rfl
    rw [if_pos (by simp),bindOk]
    simp only [List.take_succ_cons,List.take_zero,List.drop_succ_cons,List.drop_zero,first,head,bindOk,nextMessage]
    split
    · rfl
    · rw [readFullFits rest (Nat.le_refl _),bindOk]
      split
      · rename_i fits _ is
        split at is
        · contradiction
        · rename_i short
          rw [if_neg short]
      · rename_i is
        split at is
        · rename_i fits
          rw [if_pos fits]
          cases is
          rfl
        · contradiction

theorem runQueryLoopFine (fuel turn : Nat) (stream : Bytes) :
    Fine (runQueryLoop env fuel turn c stream) ↔ ∀ m ∈ messages env fuel turn stream, Terminated m := by
  induction fuel generalizing turn c stream with
  | zero => exact iff_of_true (.ok _) nofun
  | succ fuel ih =>
    rw [runQueryLoop,messages]
    split
    · exact iff_of_true (.ok _) nofun
    rw [readMessageIs,bindOk]
    cases nextMessage stream with
    | none => exact iff_of_true (.ok _) nofun
    | some m =>
      obtain ⟨type,body,rest⟩ := m
      simp only
      split
      · exact iff_of_true (.ok _) nofun
      · rw [List.forall_mem_cons,← dispatchFine env c type]
        cases handled : dispatch env type body body.length c with
        | error e => exact iff_of_false nofun fun h => notFine e h.1
        | ok out =>
          obtain ⟨events,c'⟩ := out
          rw [bindOk,and_iff_right (Fine.ok _),← ih c' (turn + 1) rest]
          constructor
          · intro ⟨all,is⟩
            cases later : runQueryLoop env fuel (turn + 1) c' rest with
            | error e =>
              simp only [later] at is
              cases is
            | ok tail => exact .ok _
          · exact fun later => later.bind fun _ => .ok _

/-! ### The start-up -/

/-- How many bytes of a start-up body arrive. -/
def received : Bytes → Nat
  | a :: b :: c :: d :: rest =>
    let total := beNat a b c d
    if total < 8 ∨ total > bufMax then 0 else min (total - 4) rest.length
  | _ => 0

/-- The first four bytes of a start-up body. -/
def codeOf : Bytes → Nat
  | a :: b :: c :: d :: _ => beNat a b c d
  | _ => 0

/-- A whole start-up message: its code, its body and what follows. -/
def startup : Bytes → Option (Nat × Bytes × Bytes)
  | a :: b :: c :: d :: rest =>
    let total := beNat a b c d
    if total < 8 ∨ total > bufMax then none
    else if total - 4 ≤ rest.length then some (codeOf rest,rest.take (total - 4),rest.drop (total - 4)) else none
  | _ => none

/-- What `read_startup` makes of a start-up message. -/
def startupOf (m : Option (Nat × Bytes × Bytes)) : Startup :=
  match m with
  | none => .failed
  | some (code,body,rest) =>
    if code = sslRequest then if env.sslReply then .ssl rest else .failed
    else if code = cancelRequest then .failed
    else if code ≠ protocolV3 then .failed
    else .ready body rest

theorem codeRead {rest : Bytes} {n : Nat} (four : 4 ≤ n) (fits : n ≤ rest.length) :
    be32 (rest.take n) 0 = .ok (codeOf rest) := by
  obtain ⟨n,rfl⟩ := Nat.exists_eq_add_of_le' four
  match rest with
  | [] | [_] | [_,_] | [_,_,_] => simp at fits
  | _ :: _ :: _ :: _ :: _ => rfl

theorem readStartupIs (stream : Bytes) :
    readStartup env stream = if startupCap < received stream then .error (.write startupCap)
      else .ok (startupOf env (startup stream)) := by
  rw [readStartup,readFullFits stream (Nat.le_refl 4)]
  match stream with
  | [] | [_] | [_,_] | [_,_,_] => rfl
  | a :: b :: c :: d :: rest =>
    obtain ⟨total,is⟩ : ∃ total, beNat a b c d = total := ⟨_,rfl⟩
    have head : be32 [a,b,c,d] 0 = .ok total := congrArg Except.ok is
    rw [if_pos (by simp),bindOk]
    simp only [List.take_succ_cons,List.take_zero,List.drop_succ_cons,List.drop_zero,head,bindOk,received,startup,is]
    by_cases range : total < 8 ∨ total > bufMax
    · simp only [if_pos range,if_neg (Nat.not_lt_zero _),startupOf]
    rw [if_neg range,if_neg range,if_neg range,readFull]
    by_cases tooLong : startupCap < min (total - 4) rest.length
    · rw [if_pos tooLong,if_pos tooLong]
      rfl
    rw [if_neg tooLong,if_neg tooLong,bindOk]
    by_cases fits : total - 4 ≤ rest.length
    · simp only [if_pos fits,codeRead (by omega) fits,bindOk,startupOf]
      split
      · rfl
      split
      · rfl
      split <;> rfl
    · simp only [if_neg fits,startupOf]

/-! ### The handshake -/

theorem startupPairsFine (h : len ≤ body.length) : ∀ fuel key found, Fine (startupPairs body len fuel key found)
  | 0, _, _ => .ok _
  | fuel + 1, key, found => by
    rw [startupPairs]
    split
    · refine (rdFine (by omega)).bind fun _ => ?_
      split
      · refine (scanFine h _ _).bind fun keyEnd => ?_
        split
        · exact .ok _
        · refine (scanFine h _ _).bind fun valEnd => ?_
          split
          · exact .ok _
          · exact startupPairsFine h fuel _ _
      · exact .ok _
    · exact .ok _

theorem parseStartupKvFine (body : Bytes) : Fine (parseStartupKv body body.length) :=
  (startupPairsFine (Nat.le_refl _) _ _ _).bind fun _ => .ok _

/-- The stream after the password of a client that is let in. -/
def letIn (user database stream : Bytes) : Option Bytes :=
  match nextMessage stream with
  | none => none
  | some (type,pw,rest) =>
    if type = 112 ∧ pw ≠ [] ∧ env.authenticate user (cstr pw) database then some rest else none

theorem handlePasswordIs (user database stream : Bytes) :
    handlePassword env user database stream = .ok (letIn env user database stream) := by
  rw [handlePassword,readFullFits stream (Nat.le_refl 5),letIn]
  match stream with
  | [] | [_] | [_,_] | [_,_,_] | [_,_,_,_] => rfl
  | type :: a :: b :: c :: d :: rest =>
    have head : be32 [type,a,b,c,d] 1 = .ok (beNat a b c d) := rfl
    have first : rd [type,a,b,c,d] 0 = .ok type := rfl
    rw [if_pos (by simp),bindOk]
    simp only [List.take_succ_cons,List.take_zero,List.drop_succ_cons,List.drop_zero,first,head,bindOk,nextMessage]
    generalize beNat a b c d = l
    by_cases password : type = 112
    · rw [if_neg (not_not_intro password)]
      by_cases range : l < 4 ∨ l - 4 > bufMax
      · rw [if_pos (by omega),if_pos range]
      by_cases empty : l = 4
      · rw [if_pos (by omega),if_neg range]
        simp [empty]
      rw [if_neg (by omega),if_neg range,readFullFits rest (Nat.le_succ _),bindOk]
      by_cases fits : l - 4 ≤ rest.length
      · have some_ : rest.take (l - 4) ≠ [] := fun nil => by
          have := List.take_eq_nil_iff.mp nil
          rcases this with zero | nil
          · omega
          · rw [nil,List.length_nil] at fits
            omega
        simp only [if_pos fits,password,some_,ne_eq,not_false_eq_true,true_and]
      · simp only [if_neg fits]
    · rw [if_pos password]
      by_cases range : l < 4 ∨ l - 4 > bufMax
      · rw [if_pos range]
      · rw [if_neg range]
        by_cases fits : l - 4 ≤ rest.length
        · simp only [if_pos fits,password,false_and,if_false]
        · rw [if_neg fits]

/-- The client of this start-up body reaches the query phase, on this stream. -/
def Reaches (body stream rest : Bytes) : Prop :=
  ∃ user database, parseStartupKv body body.length = .ok (user,database) ∧ user ≠ [] ∧ env.askPassword ∧ env.greeting ∧
    letIn env user database stream = some rest

theorem sessionFine (body stream : Bytes) :
    Fine (session env body stream) ↔ ∀ rest, Reaches env body stream rest →
      ∀ m ∈ messages env (rest.length + 1) 0 rest, Terminated m := by
  obtain ⟨⟨user,database⟩,kv⟩ := parseStartupKvFine body
  have only : ∀ {rest}, Reaches env body stream rest → user ≠ [] ∧ env.askPassword ∧ env.greeting ∧
      letIn env user database stream = some rest := fun ⟨u,d,is,reached⟩ => by
    rw [kv] at is
    cases is
    exact reached
  rw [session,kv,bindOk]
  simp only
  split
  · rename_i none_
    exact iff_of_true (.ok _) fun _ reached => absurd none_ (only reached).1
  split
  · rename_i ask
    refine iff_of_true (.ok _) fun _ reached => ?_
    rw [(only reached).2.1] at ask
    contradiction
  rename_i named ask
  rw [handlePasswordIs,bindOk]
  cases admitted : letIn env user database stream with
  | none =>
    refine iff_of_true (.ok _) fun _ reached => ?_
    have := (only reached).2.2.2
    rw [admitted] at this
    contradiction
  | some rest =>
    simp only
    split
    · rename_i greet
      refine iff_of_true (.ok _) fun _ reached => ?_
      rw [(only reached).2.2.1] at greet
      contradiction
    · rename_i greet
      have loop := runQueryLoopFine env Conn.init (rest.length + 1) 0 rest
      have reaches : Reaches env body stream rest :=
        ⟨user,database,kv,named,by simpa using ask,by simpa using greet,admitted⟩
      constructor
      · intro ⟨all,is⟩ rest' reached
        have same := (only reached).2.2.2
        rw [admitted] at same
        cases same
        refine loop.mp ?_
        cases ran : runQueryLoop env (rest.length + 1) 0 Conn.init rest with
        | error e =>
          rw [ran] at is
          cases is
        | ok events => exact .ok _
      · exact fun h => (loop.mpr (h rest reaches)).bind fun _ => .ok _

/-- A whole start-up message of version 3. -/
def version3 (stream : Bytes) : Option (Bytes × Bytes) :=
  match startup stream with
  | none => none
  | some (code,body,rest) => if code = protocolV3 then some (body,rest) else none

/-- The body of the start-up message, after an SSL request if there is one, and the stream after it. -/
def client (stream : Bytes) : Option (Bytes × Bytes) :=
  match startup stream with
  | none => none
  | some (code,body,rest) =>
    if code = protocolV3 then some (body,rest) else if code = sslRequest ∧ env.sslReply then version3 rest else none

/-- A start-up body, that after an SSL request too, arrives with at most 8192 bytes, and every Simple Query of a
client let in has an empty body or a NUL in it. -/
structure InBounds (stream : Bytes) : Prop where
  first : received stream ≤ startupCap
  second : ∀ body rest, startup stream = some (sslRequest,body,rest) → env.sslReply → received rest ≤ startupCap
  queries : ∀ body rest after, client env stream = some (body,rest) → Reaches env body rest after →
    ∀ m ∈ messages env (after.length + 1) 0 after, Terminated m

theorem startupOfReady {m : Option (Nat × Bytes × Bytes)} {body rest : Bytes} (is : startupOf env m = .ready body rest) :
    m = some (protocolV3,body,rest) := by
  cases m with
  | none => cases is
  | some m =>
    obtain ⟨code,b,r⟩ := m
    rw [startupOf] at is
    split at is
    · split at is <;> cases is
    split at is
    · cases is
    split at is
    · cases is
    · rename_i v3
      cases is
      rw [not_not.mp v3]

theorem startupOfSsl {m : Option (Nat × Bytes × Bytes)} {rest : Bytes} (is : startupOf env m = .ssl rest) :
    ∃ body, m = some (sslRequest,body,rest) ∧ env.sslReply = true := by
  cases m with
  | none => cases is
  | some m =>
    obtain ⟨code,b,r⟩ := m
    rw [startupOf] at is
    split at is
    · rename_i request
      split at is
      · rename_i reply
        cases is
        exact ⟨b,by rw [request],reply⟩
      · cases is
    split at is
    · cases is
    split at is <;> cases is

theorem startupOfV3 (body rest : Bytes) : startupOf env (some (protocolV3,body,rest)) = .ready body rest := rfl

/-- The second start-up message: nothing but a start-up of version 3 goes on. -/
theorem secondFine {rest : Bytes} (room : received rest ≤ startupCap) :
    Fine (afterProbe env rest) ↔
    ∀ body stream after, version3 rest = some (body,stream) → Reaches env body stream after →
      ∀ m ∈ messages env (after.length + 1) 0 after, Terminated m := by
  rw [afterProbe,readStartupIs,if_neg (Nat.not_lt.mpr room),bindOk,version3]
  cases is : startup rest with
  | none => exact iff_of_true (.ok _) nofun
  | some m =>
    obtain ⟨code,body,stream⟩ := m
    by_cases v3 : code = protocolV3
    · simp only [v3,startupOfV3,if_true]
      rw [sessionFine]
      constructor
      · rintro h _ _ after ⟨⟩
        exact h after
      · exact fun h after => h body stream after rfl
    · simp only [v3,if_false]
      refine iff_of_true ?_ nofun
      split
      · rename_i ready
        have := startupOfReady env ready
        cases this
        exact absurd rfl v3
      · exact .ok _

/-- A connection keeps inside its buffers on exactly these streams. -/
theorem connectionInBounds (stream : Bytes) : Fine (connectionThread env stream) ↔ InBounds env stream := by
  rw [connectionThread,readStartupIs]
  by_cases tooLong : startupCap < received stream
  · rw [if_pos tooLong]
    exact iff_of_false nofun fun h => Nat.not_lt.mpr h.first tooLong
  rw [if_neg tooLong,bindOk]
  have first := Nat.not_lt.mp tooLong
  cases is : startup stream with
  | none => exact iff_of_true (.ok _) ⟨first,by simp [is],by simp [client,is]⟩
  | some m =>
    obtain ⟨code,body,rest⟩ := m
    by_cases v3 : code = protocolV3
    · have met : client env stream = some (body,rest) := by rw [client,is]; exact if_pos v3
      have noSsl : ∀ b r, startup stream ≠ some (sslRequest,b,r) := fun b r e => by
        rw [is] at e
        cases e
        exact absurd v3 (by decide)
      rw [v3]
      simp only [startupOfV3]
      rw [sessionFine]
      constructor
      · intro h
        refine ⟨first,fun b r e => absurd e (noSsl b r),fun b r after e => ?_⟩
        rw [met] at e
        cases e
        exact h after
      · exact fun h after => h.queries body rest after met
    · by_cases ssl : code = sslRequest ∧ env.sslReply = true
      · have met : client env stream = version3 rest := by
          rw [client,is]
          exact (if_neg v3).trans (if_pos ssl)
        have probed : startupOf env (some (code,body,rest)) = .ssl rest := by
          simp only [startupOf,ssl.1,if_true,ssl.2]
        simp only [probed]
        by_cases tooLong : startupCap < received rest
        · rw [afterProbe,readStartupIs,if_pos tooLong]
          refine iff_of_false nofun fun h => ?_
          exact Nat.not_lt.mpr (h.second body rest (by rw [is,ssl.1]) ssl.2) tooLong
        · rw [secondFine env (Nat.not_lt.mp tooLong)]
          constructor
          · intro h
            refine ⟨first,fun b r e _ => ?_,fun b r after e => h b r after (met ▸ e)⟩
            rw [is] at e
            cases e
            exact Nat.not_lt.mp tooLong
          · exact fun h b r after e => h.queries b r after (met.trans e)
      · have met : client env stream = none := by
          rw [client,is]
          simp only [v3,if_false,ssl]
        refine iff_of_true ?_ ⟨first,fun b r e reply => ?_,by simp [met]⟩
        · split
          · exact .ok _
          · rename_i ready
            have := startupOfReady env ready
            cases this
            exact absurd rfl v3
          · rename_i again
            obtain ⟨b,request,reply⟩ := startupOfSsl env again
            cases request
            exact absurd ⟨rfl,reply⟩ ssl
        · rw [is] at e
          cases e
          exact absurd ⟨rfl,reply⟩ ssl

/-- A start-up message of 12288 bytes. -/
theorem startupOverflows : ¬ ∀ env stream, Fine (connectionThread env stream) := fun all => by
  let env : Env := ⟨fun _ _ _ => true,none,true,true,true,fun _ => true⟩
  obtain ⟨body,size⟩ : ∃ body : Bytes, body.length = 12284 := ⟨List.replicate 12284 0,List.length_replicate⟩
  have long : received (0 :: 0 :: 48 :: 0 :: body) = 12284 := by
    have total : beNat 0 0 48 0 = 12288 := rfl
    simp only [received,total,size]
    decide
  have run := all env (0 :: 0 :: 48 :: 0 :: body)
  rw [connectionThread,readStartupIs,long,if_pos (by decide)] at run
  exact notFine _ run

end Napastak.PgWire
