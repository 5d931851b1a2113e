import Napastak.PipelineTrip
import Napastak.Router

/-! Who may call the handlers: the middleware in `router_dispatch`, `auth_check_request`, and the table of API keys
that the requests themselves write to. The HMAC of the tokens is a parameter. -/
namespace Napastak.Http
open Auth (AuthClaims Hmac authJwtVerify)
open Scheduler (strncpy)
open Json (JVal jsonGet jsonParse)
open Store (cstr)
open Sql (JsonDoubles)

/-- A row of `auth_keys`. -/
structure AuthKey where
  key : Bytes
  userId : Bytes
  role : Int32
  createdAt : Int64
  revoked : Bool
  deriving DecidableEq, Repr

def AuthKey.claims (k : AuthKey) : AuthClaims := ⟨strncpy 64 k.userId,k.role,k.createdAt + 86400 * 365⟩

def authApikeyVerify (keys : List AuthKey) (key : Bytes) : Option AuthClaims :=
  (keys.find? fun k => decide (k.key = key) && !k.revoked).map AuthKey.claims

/-- `rand` is what was read of `/dev/urandom`; the key is the table's primary one. -/
def authApikeyCreate (keys : List AuthKey) (userId : Bytes) (role : Int32) (rand : Option Bytes) (now : Int64) : Option (List AuthKey) := do
  let key := ascii "dfo_" ++ (← rand).flatMap fun c => [Json.hexDigit (c / 16),Json.hexDigit (c % 16)]
  if keys.any fun k => k.key = key then none else some (keys ++ [⟨key,userId,role,now,false⟩])

def authApikeyRevoke (keys : List AuthKey) (key : Bytes) : List AuthKey :=
  keys.map fun k => if k.key = key then {k with revoked := true} else k

/-- `strncasecmp(s,word,strlen(word)) == 0` for a word in lower case. -/
def startsWord (s : Bytes) (word : String) : Bool := decide ((s.take (ascii word).length).map tolower = ascii word)

/-- The values of `api_key` in the order of the query that fit the buffer. -/
def queryKeys (query : Bytes) : List Bytes :=
  (query.splitOn 38).filterMap fun kv =>
    if 8 < kv.length ∧ kv.take 8 = ascii "api_key=" ∧ kv.length - 8 < 256 then some (kv.drop 8) else none

structure App where
  authEnabled : Bool
  jwtSecret : Bytes
  keys : List AuthKey

variable (hmac : Hmac)

/-- The credentials in the order of their tests. -/
def authCheckRequest (app : App) (req : HttpReq) (now : Int64) : Option AuthClaims :=
  ((header req.headers (ascii "authorization")).bind fun auth =>
    if startsWord auth "bearer " then
      (authJwtVerify hmac app.jwtSecret (auth.drop 7) now).or
        (if (auth.drop 7).take 4 = ascii "dfo_" then authApikeyVerify app.keys (auth.drop 7) else none)
    else if startsWord auth "apikey " then authApikeyVerify app.keys (auth.drop 7)
    else none).or <|
  ((header req.headers (ascii "x-api-key")).bind (authApikeyVerify app.keys)).or <|
  (query req.path).bind fun q => (queryKeys q).findSome? (authApikeyVerify app.keys)

inductive Outcome
  | notFound | unauthorized
  | ran (h : Handler) (params : List (Bytes × Bytes)) (claims : AuthClaims)
  deriving DecidableEq

/-- The claims of a request whose credentials are not looked at: `ROLE_VIEWER`. -/
def anonymous : AuthClaims := ⟨strncpy 64 [],2,0⟩

def routerDispatch (app : App) (req : HttpReq) (now : Int64) : Outcome :=
  match route apiRegisterRoutes req.method req.path with
  | none => .notFound
  | some (r,params) =>
    if app.authEnabled = true ∧ r.pattern ∉ publicPaths then
      match authCheckRequest hmac app req now with
      | some claims => .ran r.handler params claims
      | none => .unauthorized
    else .ran r.handler params anonymous

inductive Served
  | preflight | upgraded
  | dispatched (o : Outcome)
  deriving DecidableEq

/-- `handle_conn` behind `parse_request`. -/
def serve (app : App) (req : HttpReq) (now : Int64) : Served :=
  if req.method = ascii "OPTIONS" then .preflight
  else if req.upgradeWs then .upgraded
  else .dispatched (routerDispatch hmac app req now)

/-- A request with the time and the random bytes it finds; `fuel` is for its body's parser. -/
structure Arrival where
  req : HttpReq
  now : Int64
  rand : Option Bytes
  fuel : Nat

variable (F : Type) [JsonDoubles F]

def jsonText (v : Option (JVal F)) : Option Bytes :=
  match v with
  | some (.string s) => some (cstr s)
  | _ => none

def roleOf (s : Bytes) : Option Int32 :=
  if s = ascii "admin" then some 0
  else if s = ascii "analyst" then some 1
  else if s = ascii "viewer" then some 2
  else none

/-- The row that `h_auth_apikey_create` writes. -/
def apikeyCreate (keys : List AuthKey) (claims : AuthClaims) (a : Arrival) : Option (List AuthKey) :=
  if claims.role ≠ 0 ∨ a.req.body = [] then none
  else match (jsonParse a.fuel a.req.body : Option (JVal F)) with
    | some (.object fields) => do
      let userId ← jsonText F (jsonGet (.object fields) (ascii "user_id"))
      let role ← jsonText F (jsonGet (.object fields) (ascii "role"))
      authApikeyCreate keys userId (← roleOf role) a.rand a.now
    | _ => none

/-- `h_auth_apikey_delete`. -/
def apikeyDelete (keys : List AuthKey) (claims : AuthClaims) (params : List (Bytes × Bytes)) : Option (List AuthKey) :=
  if claims.role ≠ 0 then none else (header params (ascii "key")).map (authApikeyRevoke keys)

/-- The other handlers leave the keys alone. -/
def step (app : App) (a : Arrival) : App :=
  match serve hmac app a.req a.now with
  | .dispatched (.ran h params claims) =>
    let keys :=
      if h = .authApikeyCreate then apikeyCreate F app.keys claims a
      else if h = .authApikeyDelete then apikeyDelete app.keys claims params
      else none
    {app with keys := keys.getD app.keys}
  | _ => app

def after (app : App) (as : List Arrival) : App := as.foldl (step hmac F) app

/-! ### Credentials -/

def BearerToken (req : HttpReq) (token : Bytes) : Prop :=
  ∃ auth, header req.headers (ascii "authorization") = some auth ∧ startsWord auth "bearer " ∧ token = auth.drop 7

def Presents (req : HttpReq) (key : Bytes) : Prop :=
  (∃ auth, header req.headers (ascii "authorization") = some auth ∧ key = auth.drop 7 ∧
    (startsWord auth "bearer " ∧ key.take 4 = ascii "dfo_" ∨ startsWord auth "apikey ")) ∨
  header req.headers (ascii "x-api-key") = some key ∨ ∃ q, query req.path = some q ∧ key ∈ queryKeys q

variable {hmac F}

theorem oneWord {s : Bytes} (bearer : startsWord s "bearer " = true) : startsWord s "apikey " = false := by
  have is := of_decide_eq_true bearer
  refine decide_eq_false fun other => ?_
  have same : (ascii "bearer ").length = (ascii "apikey ").length := by decide
  rw [same,other] at is
  exact absurd is (by decide)

theorem checkIs {app : App} {req : HttpReq} {now : Int64} {claims : AuthClaims} (accepted : authCheckRequest hmac app req now = some claims) :
    (∃ token, BearerToken req token ∧ authJwtVerify hmac app.jwtSecret token now = some claims) ∨
      ∃ key, Presents req key ∧ authApikeyVerify app.keys key = some claims := by
  rw [authCheckRequest,Option.or_eq_some_iff] at accepted
  rcases accepted with own | ⟨_,accepted⟩
  · obtain ⟨auth,here,own⟩ := Option.bind_eq_some_iff.mp own
    split at own
    · rename_i bearer
      rcases Option.or_eq_some_iff.mp own with token | ⟨_,own⟩
      · exact .inl ⟨_,⟨auth,here,bearer,rfl⟩,token⟩
      · split at own
        · rename_i dfo
          exact .inr ⟨_,.inl ⟨auth,here,rfl,.inl ⟨bearer,dfo⟩⟩,own⟩
        · cases own
    · split at own
      · rename_i apikey
        exact .inr ⟨_,.inl ⟨auth,here,rfl,.inr apikey⟩,own⟩
      · cases own
  · rcases Option.or_eq_some_iff.mp accepted with own | ⟨_,own⟩
    · obtain ⟨key,here,own⟩ := Option.bind_eq_some_iff.mp own
      exact .inr ⟨key,.inr (.inl here),own⟩
    · obtain ⟨q,here,own⟩ := Option.bind_eq_some_iff.mp own
      obtain ⟨key,mem,own⟩ := List.exists_of_findSome?_eq_some own
      exact .inr ⟨key,.inr (.inr ⟨q,here,mem⟩),own⟩

theorem checkNone {app : App} {req : HttpReq} {now : Int64} (refused : authCheckRequest hmac app req now = none) :
    (∀ token, BearerToken req token → authJwtVerify hmac app.jwtSecret token now = none) ∧
      ∀ key, Presents req key → authApikeyVerify app.keys key = none := by
  rw [authCheckRequest,Option.or_eq_none_iff,Option.or_eq_none_iff] at refused
  obtain ⟨own,header_,query_⟩ := refused
  constructor
  · rintro token ⟨auth,here,bearer,rfl⟩
    rw [here,Option.bind_some,if_pos bearer,Option.or_eq_none_iff] at own
    exact own.1
  · rintro key (⟨auth,here,rfl,⟨bearer,dfo⟩ | apikey⟩ | here | ⟨q,here,mem⟩)
    · rw [here,Option.bind_some,if_pos bearer,Option.or_eq_none_iff,if_pos dfo] at own
      exact own.2
    · have notBearer : ¬startsWord auth "bearer " = true := fun bearer => by rw [oneWord bearer] at apikey; cases apikey
      rwa [here,Option.bind_some,if_neg notBearer,if_pos apikey] at own
    · rwa [here,Option.bind_some] at header_
    · rw [here,Option.bind_some,List.findSome?_eq_none_iff] at query_
      exact query_ key mem

theorem routeMem {method path : Bytes} {r : Route} {params : List (Bytes × Bytes)} (found : route apiRegisterRoutes method path = some (r,params)) :
    r ∈ apiRegisterRoutes := by
  obtain ⟨s,mem,is⟩ := List.exists_of_findSome?_eq_some found
  split at is
  · obtain ⟨_,_,same⟩ := Option.map_eq_some_iff.mp is
    cases same
    exact mem
  · cases is

/-- What a handler runs on, where the authentication is on. -/
theorem ranIff {app : App} (enabled : app.authEnabled = true) {req : HttpReq} {now : Int64} {h : Handler} {params : List (Bytes × Bytes)}
    {claims : AuthClaims} : routerDispatch hmac app req now = .ran h params claims ↔
      (∃ r, route apiRegisterRoutes req.method req.path = some (r,params) ∧ r.handler = h) ∧
        if h ∈ publicHandlers then claims = anonymous else authCheckRequest hmac app req now = some claims := by
  unfold routerDispatch
  cases found : route apiRegisterRoutes req.method req.path with
  | none => simp
  | some rp =>
    obtain ⟨r,ps⟩ := rp
    have public_ : OpenAlike r := (tableChecked.1 r (routeMem found)).2.2
    dsimp only
    by_cases open_ : r.handler ∈ publicHandlers
    · rw [if_neg fun both => both.2 (public_.mpr open_)]
      constructor
      · rintro ⟨⟩
        exact ⟨⟨r,rfl,rfl⟩,(if_pos open_).symm ▸ rfl⟩
      · rintro ⟨⟨_,same,rfl⟩,is⟩
        cases same
        rw [if_pos open_] at is
        rw [is]
    · rw [if_pos ⟨enabled,fun mem => open_ (public_.mp mem)⟩]
      cases checked : authCheckRequest hmac app req now with
      | none =>
        refine ⟨nofun,?_⟩
        rintro ⟨⟨_,same,rfl⟩,is⟩
        cases same
        rw [if_neg open_] at is
        cases is
      | some c =>
        constructor
        · rintro ⟨⟩
          exact ⟨⟨r,rfl,rfl⟩,(if_neg open_).symm ▸ rfl⟩
        · rintro ⟨⟨_,same,rfl⟩,is⟩
          cases same
          rw [if_neg open_] at is
          rw [Option.some.inj is]

/-! ### The keys -/

/-- The request has the row written, in a place where no row has its key. -/
def Creates (hmac : Hmac) (F : Type) [JsonDoubles F] (app : App) (a : Arrival) (row : AuthKey) : Prop :=
  ∃ params claims, serve hmac app a.req a.now = .dispatched (.ran .authApikeyCreate params claims) ∧
    apikeyCreate F app.keys claims a = some (app.keys ++ [row])

def Revokes (hmac : Hmac) (app : App) (a : Arrival) (key : Bytes) : Prop :=
  ∃ params claims, serve hmac app a.req a.now = .dispatched (.ran .authApikeyDelete params claims) ∧ claims.role = 0 ∧
    header params (ascii "key") = some key

/-- No request of the run revokes the key. -/
def Kept (hmac : Hmac) (F : Type) [JsonDoubles F] (key : Bytes) : App → List Arrival → Prop
  | _,[] => True
  | app,a :: as => ¬Revokes hmac app a key ∧ Kept hmac F key (step hmac F app a) as

def Live (keys : List AuthKey) (row : AuthKey) : Prop := row ∈ keys ∧ row.revoked = false

theorem createRow {keys keys' : List AuthKey} {userId : Bytes} {role : Int32} {rand : Option Bytes} {now : Int64}
    (created : authApikeyCreate keys userId role rand now = some keys') :
    ∃ row, keys' = keys ++ [row] ∧ row.revoked = false ∧ ∀ k ∈ keys, k.key ≠ row.key := by
  obtain ⟨bytes,_,created⟩ := Option.bind_eq_some_iff.mp created
  dsimp only at created
  split at created
  · cases created
  · rename_i fresh
    exact ⟨_,(Option.some.inj created).symm,rfl,fun k mem same => fresh (List.any_eq_true.mpr ⟨k,mem,decide_eq_true same⟩)⟩

theorem createIs {keys keys' : List AuthKey} {claims : AuthClaims} {a : Arrival} (created : apikeyCreate F keys claims a = some keys') :
    claims.role = 0 ∧ ∃ row, keys' = keys ++ [row] ∧ row.revoked = false ∧ ∀ k ∈ keys, k.key ≠ row.key := by
  rw [apikeyCreate] at created
  split at created
  · cases created
  · rename_i admin
    refine ⟨not_not.mp fun other => admin (.inl other),?_⟩
    split at created
    · obtain ⟨userId,_,created⟩ := Option.bind_eq_some_iff.mp created
      obtain ⟨role,_,created⟩ := Option.bind_eq_some_iff.mp created
      obtain ⟨role,_,created⟩ := Option.bind_eq_some_iff.mp created
      exact createRow created
    · cases created

theorem deleteIs {keys keys' : List AuthKey} {claims : AuthClaims} {params : List (Bytes × Bytes)}
    (deleted : apikeyDelete keys claims params = some keys') :
    claims.role = 0 ∧ ∃ key, header params (ascii "key") = some key ∧ keys' = authApikeyRevoke keys key := by
  rw [apikeyDelete] at deleted
  split at deleted
  · cases deleted
  · rename_i admin
    obtain ⟨key,here,is⟩ := Option.map_eq_some_iff.mp deleted
    exact ⟨not_not.mp admin,key,here,is.symm⟩

/-- What a request does to the keys. -/
theorem stepCases (app : App) (a : Arrival) :
    (step hmac F app a = app ∧ (∀ row, ¬Creates hmac F app a row) ∧ ∀ key, ¬Revokes hmac app a key) ∨
    (∃ row, step hmac F app a = {app with keys := app.keys ++ [row]} ∧ (∀ row', Creates hmac F app a row' ↔ row' = row) ∧
      (∀ key, ¬Revokes hmac app a key) ∧ row.revoked = false ∧ ∀ k ∈ app.keys, k.key ≠ row.key) ∨
    ∃ key, step hmac F app a = {app with keys := authApikeyRevoke app.keys key} ∧ (∀ row, ¬Creates hmac F app a row) ∧
      ∀ key', Revokes hmac app a key' ↔ key' = key := by
  unfold step Creates Revokes
  cases served : serve hmac app a.req a.now with
  | preflight => exact .inl ⟨rfl,by simp,by simp⟩
  | upgraded => exact .inl ⟨rfl,by simp,by simp⟩
  | dispatched o => cases o with
    | notFound => exact .inl ⟨rfl,by simp,by simp⟩
    | unauthorized => exact .inl ⟨rfl,by simp,by simp⟩
    | ran h params claims =>
      by_cases create : h = .authApikeyCreate
      · subst create
        cases created : apikeyCreate F app.keys claims a with
        | none => exact .inl ⟨by simp [created],by simp [created],by simp⟩
        | some keys =>
          obtain ⟨_,row,rfl,live,fresh⟩ := createIs created
          exact .inr (.inl ⟨row,by simp [created],by simp [created,eq_comm],by simp,live,fresh⟩)
      · by_cases delete : h = .authApikeyDelete
        · subst delete
          cases deleted : apikeyDelete app.keys claims params with
          | none =>
            refine .inl ⟨by simp [deleted],by simp,?_⟩
            rintro key ⟨_,_,⟨⟩,admin,here⟩
            rw [apikeyDelete,if_neg (not_not.mpr admin),here] at deleted
            cases deleted
          | some keys =>
            obtain ⟨admin,key,here,rfl⟩ := deleteIs deleted
            exact .inr (.inr ⟨key,by simp [deleted],by simp,by simp [admin,here,eq_comm]⟩)
        · exact .inl ⟨by simp [create,delete],by simp [create],by simp [delete]⟩

theorem revokedLive {keys : List AuthKey} {key : Bytes} {row : AuthKey} :
    Live (authApikeyRevoke keys key) row ↔ Live keys row ∧ row.key ≠ key := by
  rw [Live,Live,authApikeyRevoke,List.mem_map]
  constructor
  · rintro ⟨⟨k,mem,rfl⟩,live⟩
    by_cases same : k.key = key
    · rw [if_pos same] at live
      cases live
    · rw [if_neg same] at live ⊢
      exact ⟨⟨mem,live⟩,same⟩
  · rintro ⟨⟨mem,live⟩,other⟩
    exact ⟨⟨row,mem,if_neg other⟩,live⟩

theorem stepLive (app : App) (a : Arrival) (row : AuthKey) : Live (step hmac F app a).keys row ↔
    Live app.keys row ∧ ¬Revokes hmac app a row.key ∨ Creates hmac F app a row := by
  rcases @stepCases hmac F _ app a with ⟨is,noCreate,noRevoke⟩ | ⟨new,is,create,noRevoke,live,_⟩ | ⟨key,is,noCreate,revoke⟩
  · simp [is,noCreate,noRevoke]
  · rw [is,create]
    simp only [Live,List.mem_append,List.mem_singleton,noRevoke,not_false_eq_true,and_true]
    constructor
    · rintro ⟨mem | rfl,alive⟩
      · exact .inl ⟨mem,alive⟩
      · exact .inr rfl
    · rintro (⟨mem,alive⟩ | rfl)
      · exact ⟨.inl mem,alive⟩
      · exact ⟨.inr rfl,live⟩
  · rw [is,revoke]
    simp [revokedLive,noCreate]

theorem runLive (app : App) (as : List Arrival) (row : AuthKey) : Live (after hmac F app as).keys row ↔
    Live app.keys row ∧ Kept hmac F row.key app as ∨
      ∃ before a later, as = before ++ a :: later ∧ Creates hmac F (after hmac F app before) a row ∧
        Kept hmac F row.key (after hmac F app (before ++ [a])) later := by
  induction as generalizing app with
  | nil => simp [after,Kept]
  | cons a as ih =>
    have split_ {P : List Arrival → Arrival → List Arrival → Prop} : (∃ before b later, a :: as = before ++ b :: later ∧ P before b later) ↔
        P [] a as ∨ ∃ before b later, as = before ++ b :: later ∧ P (a :: before) b later := by
      constructor
      · rintro ⟨before,b,later,is,holds⟩
        cases before with
        | nil => cases is; exact .inl holds
        | cons c before => cases is; exact .inr ⟨before,b,later,rfl,holds⟩
      · rintro (holds | ⟨before,b,later,rfl,holds⟩)
        · exact ⟨[],a,as,rfl,holds⟩
        · exact ⟨a :: before,b,later,rfl,holds⟩
    rw [split_,show after hmac F app (a :: as) = after hmac F (step hmac F app a) as from rfl,ih,stepLive,Kept]
    simp only [after,List.cons_append,List.foldl_cons,List.nil_append,List.foldl_nil]
    tauto

def KeysApart (keys : List AuthKey) : Prop := keys.Pairwise fun k l => k.key ≠ l.key

theorem stepApart (app : App) (a : Arrival) (apart : KeysApart app.keys) : KeysApart (step hmac F app a).keys := by
  rcases @stepCases hmac F _ app a with ⟨is,_⟩ | ⟨new,is,_,_,_,fresh⟩ | ⟨key,is,_⟩
  · rwa [is]
  · rw [is]
    exact List.pairwise_append.mpr ⟨apart,List.pairwise_singleton ..,fun k mem l last => List.mem_singleton.mp last ▸ fresh k mem⟩
  · rw [is]
    refine List.Pairwise.map _ (fun k l other => ?_) apart
    have same (k : AuthKey) : (if k.key = key then {k with revoked := true} else k).key = k.key := by split <;> rfl
    rwa [same,same]

theorem runApart (app : App) (as : List Arrival) (apart : KeysApart app.keys) : KeysApart (after hmac F app as).keys := by
  induction as generalizing app with
  | nil => exact apart
  | cons a as ih => exact ih _ (stepApart app a apart)

theorem verifyLive {keys : List AuthKey} {key : Bytes} {claims : AuthClaims} (valid : authApikeyVerify keys key = some claims) :
    ∃ row, Live keys row ∧ row.key = key ∧ row.claims = claims := by
  obtain ⟨row,found,is⟩ := Option.map_eq_some_iff.mp valid
  have passed := List.find?_some found
  rw [Bool.and_eq_true,decide_eq_true_eq,Bool.not_eq_true'] at passed
  exact ⟨row,⟨List.mem_of_find?_eq_some found,passed.2⟩,passed.1,is⟩

theorem verifyIff {keys : List AuthKey} (apart : KeysApart keys) (key : Bytes) (claims : AuthClaims) :
    authApikeyVerify keys key = some claims ↔ ∃ row, Live keys row ∧ row.key = key ∧ row.claims = claims := by
  refine ⟨verifyLive,?_⟩
  rintro ⟨row,⟨mem,live⟩,is,claimed⟩
  refine Option.map_eq_some_iff.mpr ⟨row,?_,claimed⟩
  induction apart with
  | nil => cases mem
  | @cons k keys alone _ ih =>
    rcases List.mem_cons.mp mem with rfl | mem
    · rw [List.find?_cons_of_pos (by rw [live,decide_eq_true is]; rfl)]
    · rw [List.find?_cons_of_neg (by rw [decide_eq_false (is ▸ alone row mem)]; exact Bool.false_ne_true),ih mem]

theorem afterFixed (app : App) (as : List Arrival) :
    (after hmac F app as).authEnabled = app.authEnabled ∧ (after hmac F app as).jwtSecret = app.jwtSecret := by
  induction as generalizing app with
  | nil => exact ⟨rfl,rfl⟩
  | cons a as ih =>
    have one : (step hmac F app a).authEnabled = app.authEnabled ∧ (step hmac F app a).jwtSecret = app.jwtSecret := by
      unfold step
      split <;> exact ⟨rfl,rfl⟩
    exact ⟨(ih _).1.trans one.1,(ih _).2.trans one.2⟩

/-- The gateway with the authentication on, before anyone has made a key. -/
def guarded (secret : Bytes) : App := ⟨true,secret,[]⟩

/-- An earlier request, served for an administrator, made the key for these claims, and none since has revoked it. -/
def Granted (hmac : Hmac) (F : Type) [JsonDoubles F] (app : App) (as : List Arrival) (key : Bytes) (claims : AuthClaims) : Prop :=
  ∃ before a later row, as = before ++ a :: later ∧ Creates hmac F (after hmac F app before) a row ∧ row.key = key ∧
    row.claims = claims ∧ Kept hmac F key (after hmac F app (before ++ [a])) later

theorem grantedIff (secret : Bytes) (as : List Arrival) (key : Bytes) (claims : AuthClaims) :
    authApikeyVerify (after hmac F (guarded secret) as).keys key = some claims ↔ Granted hmac F (guarded secret) as key claims := by
  rw [verifyIff (runApart (guarded secret) as .nil)]
  simp only [runLive]
  constructor
  · rintro ⟨row,old | ⟨before,a,later,is,created,kept⟩,rfl,claimed⟩
    · cases old.1.1
    · exact ⟨before,a,later,row,is,created,rfl,claimed,kept⟩
  · rintro ⟨before,a,later,row,is,created,rfl,claimed,kept⟩
    exact ⟨row,.inr ⟨before,a,later,is,created,kept⟩,rfl,claimed⟩

/-- After any requests, a handler runs for the next one exactly where the request is routed to it and the handler is
public, or a token in the request is valid, or a key in it was made by a request of an administrator and not revoked
by one since. -/
theorem ranHistory (secret : Bytes) (as : List Arrival) (req : HttpReq) (now : Int64) (h : Handler) :
    (∃ params claims, routerDispatch hmac (after hmac F (guarded secret) as) req now = .ran h params claims) ↔
      (∃ r params, route apiRegisterRoutes req.method req.path = some (r,params) ∧ r.handler = h) ∧
        (h ∈ publicHandlers ∨ (∃ token claims, BearerToken req token ∧ authJwtVerify hmac secret token now = some claims) ∨
          ∃ key claims, Presents req key ∧ Granted hmac F (guarded secret) as key claims) := by
  obtain ⟨enabled,same⟩ : (after hmac F (guarded secret) as).authEnabled = true ∧ (after hmac F (guarded secret) as).jwtSecret = secret :=
    afterFixed (guarded secret) as
  have verify := @grantedIff hmac F _ secret as
  simp only [ranIff enabled]
  constructor
  · rintro ⟨params,claims,⟨r,found,is⟩,passed⟩
    refine ⟨⟨r,params,found,is⟩,?_⟩
    split at passed
    · rename_i open_
      exact .inl open_
    · rcases checkIs passed with ⟨token,bearer,valid⟩ | ⟨key,presents,valid⟩
      · exact .inr (.inl ⟨token,claims,bearer,same ▸ valid⟩)
      · exact .inr (.inr ⟨key,claims,presents,(verify key claims).mp valid⟩)
  · rintro ⟨⟨r,params,found,is⟩,passed⟩
    refine ⟨params,?_⟩
    by_cases open_ : h ∈ publicHandlers
    · exact ⟨anonymous,⟨r,found,is⟩,if_pos open_ ▸ rfl⟩
    · cases checked : authCheckRequest hmac (after hmac F (guarded secret) as) req now with
      | some claims => exact ⟨claims,⟨r,found,is⟩,by rw [if_neg open_]⟩
      | none =>
        obtain ⟨noToken,noKey⟩ := checkNone checked
        rcases passed with public_ | ⟨token,claims,bearer,valid⟩ | ⟨key,claims,presents,granted⟩
        · exact absurd public_ open_
        · have := noToken token bearer
          rw [same,valid] at this
          cases this
        · have := noKey key presents
          rw [(verify key claims).mpr granted] at this
          cases this

/-- The claims a request is served under, where neither its tokens nor the live keys are an administrator's. -/
theorem servedBelow {app : App} {req : HttpReq} {now : Int64} (noKey : ∀ row, Live app.keys row → row.role ≠ 0)
    (noToken : ∀ token claims, BearerToken req token → authJwtVerify hmac app.jwtSecret token now = some claims → claims.role ≠ 0)
    {h : Handler} {params : List (Bytes × Bytes)} {claims : AuthClaims} (ran : routerDispatch hmac app req now = .ran h params claims) :
    claims.role ≠ 0 := by
  unfold routerDispatch at ran
  split at ran
  · cases ran
  · split at ran
    · split at ran
      · rename_i checked
        cases ran
        rcases checkIs checked with ⟨token,bearer,valid⟩ | ⟨key,_,valid⟩
        · exact noToken token _ bearer valid
        · obtain ⟨row,live,_,rfl⟩ := verifyLive valid
          exact noKey row live
      · cases ran
    · cases ran
      decide

theorem stepBelow {app : App} {a : Arrival} (below : ∀ h params claims,
    routerDispatch hmac app a.req a.now = .ran h params claims → claims.role ≠ 0) : step hmac F app a = app := by
  unfold step
  split
  · rename_i h params claims served
    have ran : routerDispatch hmac app a.req a.now = .ran h params claims := by
      unfold serve at served
      split at served
      · cases served
      · split at served
        · cases served
        · exact Served.dispatched.inj served
    have role := below h params claims ran
    have noCreate : apikeyCreate F app.keys claims a = none := if_pos (.inl role)
    have noDelete : apikeyDelete app.keys claims params = none := if_pos role
    simp only [noCreate,noDelete,ite_self,Option.getD_none]
  · rfl

/-- Without an administrator's token, and from keys none of which is one's, no run of requests ever has one served as an
administrator's or changes the keys. -/
theorem noEscalation {app : App} {as : List Arrival} (noKey : ∀ row, Live app.keys row → row.role ≠ 0)
    (noToken : ∀ a ∈ as, ∀ token claims, BearerToken a.req token → authJwtVerify hmac app.jwtSecret token a.now = some claims →
      claims.role ≠ 0) :
    (after hmac F app as).keys = app.keys ∧ ∀ before a later, as = before ++ a :: later → ∀ h params claims,
      routerDispatch hmac (after hmac F app before) a.req a.now = .ran h params claims → claims.role ≠ 0 := by
  induction as with
  | nil => exact ⟨rfl,fun before a later is => by cases before <;> cases is⟩
  | cons a as ih =>
    have first : ∀ h params claims, routerDispatch hmac app a.req a.now = .ran h params claims → claims.role ≠ 0 :=
      fun h params claims => servedBelow noKey (noToken a List.mem_cons_self)
    have same : after hmac F app (a :: as) = after hmac F app as := congrArg (as.foldl (step hmac F)) (stepBelow first)
    obtain ⟨keys,later_⟩ := ih fun b mem => noToken b (List.mem_cons_of_mem a mem)
    refine ⟨same ▸ keys,fun before b later is => ?_⟩
    cases before with
    | nil => cases is; exact first
    | cons c before =>
      cases is
      rw [show after hmac F app (a :: before) = after hmac F app before from congrArg (before.foldl (step hmac F)) (stepBelow first)]
      exact later_ before b later rfl

/-- A viewer's key asks for a key of its own. -/
def viewerAsks : Arrival where
  req := ⟨ascii "POST",ascii "/api/auth/apikeys",[(ascii "x-api-key",ascii "dfo_v")],
    ascii "\x7b\"user_id\":\"eve\",\"role\":\"admin\"\x7d",false⟩
  now := 5
  rand := some [1,2]
  fuel := 40

def viewerApp : App := ⟨true,ascii "secret",[⟨ascii "dfo_v",ascii "eve",2,0,false⟩]⟩

theorem viewerStays : (after Auth.aliceHmac Int viewerApp [viewerAsks,viewerAsks]).keys = viewerApp.keys := by
  refine (noEscalation (fun row live => ?_) fun a mem token claims bearer => ?_).1
  · rw [List.mem_singleton.mp live.1]
    decide
  · obtain ⟨auth,here,_⟩ := bearer
    have : a = viewerAsks := by simpa using mem
    have none_ : header viewerAsks.req.headers (ascii "authorization") = none := by decide
    rw [this,none_] at here
    cases here

end Napastak.Http
