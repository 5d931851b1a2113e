import Napastak.Http
import Napastak.Lib.Routes

/-! The router of `http.c` and the gateway's routes: which handler a method and a path come to, and with which
parameters. -/
namespace Napastak.Http
open Routes

/-- The handlers of `api.c`, each under its name without `h_`. -/
inductive Handler
  | uiHtml | uiCss | uiJs | health | tablesList | query | queryNamed | tableSchema | tableCompression | tableDelete
  | ingestCsv | ingestParquet | pipelinesList | pipelineCreate | pipelinePreviewYaml | pipelinePreviewStep
  | pipelineFromTemplate | pipelineGet | pipelineRun | pipelineDelete | pipelineRuns | webhookTrigger | metrics
  | metricsPrometheus | resultSave | resultList | resultGet | resultDelete | indexCreate | indexList
  | connectorProbeEntities | connectorProbePing | connectorProbePreview | connectorProbeSchema | connectionsList
  | connectionCreate | connectionGet | connectionUpdate | connectionDelete | connectionConnect | connectionDisconnect
  | authToken | authApikeyCreate | authApikeyList | authApikeyDelete | authMe | authUserCreate | authUserList
  | authUserDelete | rbacPoliciesList | rbacPolicySet | rbacPolicyDel | auditQuery | matviewCreate | matviewsList
  | matviewRefresh | matviewRuns | matviewDrop | clusterStatus
  deriving DecidableEq, Repr

structure Route where
  method : Bytes
  pattern : Bytes
  handler : Handler
  deriving DecidableEq, Repr

def httpMaxRoutes : Nat := 128

def routerAdd (routes : List Route) (method pattern : Bytes) (h : Handler) : List Route :=
  if httpMaxRoutes ≤ routes.length then routes else routes ++ [⟨method.take 7,pattern.take 255,h⟩]

/-- The arguments of the calls of `router_add` in `api_register_routes`. -/
def registrations : List (String × String × Handler) :=
  [("GET","/",.uiHtml),
    ("GET","/style.css",.uiCss),
    ("GET","/app.js",.uiJs),
    ("GET","/health",.health),
    ("GET","/api/tables",.tablesList),
    ("POST","/api/tables/query",.query),
    ("POST","/api/query/named",.queryNamed),
    ("GET","/api/tables/:name/schema",.tableSchema),
    ("GET","/api/tables/:name/compression",.tableCompression),
    ("DELETE","/api/tables/:name",.tableDelete),
    ("POST","/api/ingest/csv",.ingestCsv),
    ("POST","/api/ingest/parquet",.ingestParquet),
    ("GET","/api/pipelines",.pipelinesList),
    ("POST","/api/pipelines",.pipelineCreate),
    ("POST","/api/pipelines/preview-yaml",.pipelinePreviewYaml),
    ("POST","/api/pipelines/preview-step",.pipelinePreviewStep),
    ("POST","/api/pipelines/from-template",.pipelineFromTemplate),
    ("GET","/api/pipelines/:id",.pipelineGet),
    ("POST","/api/pipelines/:id/run",.pipelineRun),
    ("DELETE","/api/pipelines/:id",.pipelineDelete),
    ("GET","/api/pipelines/:id/runs",.pipelineRuns),
    ("POST","/api/triggers/:token",.webhookTrigger),
    ("GET","/api/triggers/:token",.webhookTrigger),
    ("GET","/api/metrics",.metrics),
    ("GET","/metrics",.metricsPrometheus),
    ("POST","/api/analytics/results",.resultSave),
    ("GET","/api/analytics/results",.resultList),
    ("GET","/api/analytics/results/:id",.resultGet),
    ("DELETE","/api/analytics/results/:id",.resultDelete),
    ("POST","/api/tables/:name/indexes",.indexCreate),
    ("GET","/api/tables/:name/indexes",.indexList),
    ("POST","/api/connector/probe/entities",.connectorProbeEntities),
    ("POST","/api/connector/probe/ping",.connectorProbePing),
    ("POST","/api/connector/probe/preview",.connectorProbePreview),
    ("POST","/api/connector/probe/schema",.connectorProbeSchema),
    ("GET","/api/connections",.connectionsList),
    ("POST","/api/connections",.connectionCreate),
    ("GET","/api/connections/:id",.connectionGet),
    ("PUT","/api/connections/:id",.connectionUpdate),
    ("DELETE","/api/connections/:id",.connectionDelete),
    ("POST","/api/connections/:id/connect",.connectionConnect),
    ("POST","/api/connections/:id/disconnect",.connectionDisconnect),
    ("POST","/api/auth/token",.authToken),
    ("POST","/api/auth/apikeys",.authApikeyCreate),
    ("GET","/api/auth/apikeys",.authApikeyList),
    ("DELETE","/api/auth/apikeys/:key",.authApikeyDelete),
    ("GET","/api/auth/me",.authMe),
    ("POST","/api/auth/users",.authUserCreate),
    ("GET","/api/auth/users",.authUserList),
    ("DELETE","/api/auth/users/:username",.authUserDelete),
    ("GET","/api/rbac/policies",.rbacPoliciesList),
    ("POST","/api/rbac/policies",.rbacPolicySet),
    ("DELETE","/api/rbac/policies/:id",.rbacPolicyDel),
    ("GET","/api/audit",.auditQuery),
    ("POST","/api/matviews",.matviewCreate),
    ("GET","/api/matviews",.matviewsList),
    ("POST","/api/matviews/:name/refresh",.matviewRefresh),
    ("GET","/api/matviews/:name/runs",.matviewRuns),
    ("DELETE","/api/matviews/:name",.matviewDrop),
    ("GET","/api/cluster/status",.clusterStatus)]

def apiRegisterRoutes : List Route :=
  registrations.foldl (fun routes r => routerAdd routes (ascii r.1) (ascii r.2.1) r.2.2) []

/-- The loop of `route_match` and the test behind it, where one of the two has come to its end. A `:` takes the rest of
its segment, wherever in the segment it stands. -/
def matchGo : Nat → Bytes → Bytes → List (Bytes × Bytes) → Option (List (Bytes × Bytes))
  | fuel + 1,c :: p,d :: q,params =>
    if c = 58 then
      if 64 ≤ (p.takeWhile (· ≠ 47)).length then none
      else matchGo fuel (p.dropWhile (· ≠ 47)) ((d :: q).dropWhile (· ≠ 47))
        (params ++ [(p.takeWhile (· ≠ 47),(d :: q).takeWhile (· ≠ 47))])
    else if c ≠ d then none
    else matchGo fuel p q params
  | _,p,q,params => if p.dropWhile (· = 47) = [] ∧ q.dropWhile (· = 47) = [] then some params else none

def routeMatch (pattern path : Bytes) : Option (List (Bytes × Bytes)) := matchGo pattern.length pattern path []

/-- The path of a request without its query. -/
def bare (path : Bytes) : Bytes := (path.take 1023).takeWhile (· ≠ 63)

/-- The route that `router_dispatch` stops at. -/
def route (routes : List Route) (method path : Bytes) : Option (Route × List (Bytes × Bytes)) :=
  routes.findSome? fun r =>
    if r.method = method ∨ r.method = ascii "*" then (routeMatch r.pattern (bare path)).map fun params => (r,params) else none

/-! ### Segments -/

/-- A pattern without empty segments. -/
def segsOf (pattern : Bytes) : List (Seg Bytes) :=
  ((pattern.splitOn 47).filter (· ≠ [])).map fun s => if s.head? = some 58 then .param s.tail else .lit s

def segText : Seg Bytes → Bytes
  | .lit s => s
  | .param n => 58 :: n

def patternText (p : List (Seg Bytes)) : Bytes := p.flatMap fun s => 47 :: segText s

def SegPlain : Seg Bytes → Prop
  | .lit s => s ≠ [] ∧ 47 ∉ s ∧ 58 ∉ s
  | .param n => 47 ∉ n ∧ n.length < 64

instance (s : Seg Bytes) : Decidable (SegPlain s) := by
  cases s <;> exact inferInstanceAs (Decidable (_ ∧ _))

/-- A path as it is usually written, with or without a `/` at its end. -/
structure Address where
  segs : List Bytes
  slash : Bool
  plain : ∀ v ∈ segs, v ≠ [] ∧ 47 ∉ v ∧ 63 ∉ v
  short : (segs.flatMap (47 :: ·)).length ≤ 1022

def Address.text (a : Address) : Bytes := a.segs.flatMap (47 :: ·) ++ if a.slash then [47] else []

/-- Either nothing, or a segment begins. -/
def Opens (x : Bytes) : Prop := x = [] ∨ ∃ y, x = 47 :: y

theorem patternOpens (p : List (Seg Bytes)) : Opens (patternText p) := by
  cases p with
  | nil => exact .inl rfl
  | cons s p => exact .inr ⟨_,rfl⟩

theorem pathOpens (vs : List Bytes) (slash : Bool) : Opens (vs.flatMap (47 :: ·) ++ if slash then [47] else []) := by
  cases vs with
  | nil => cases slash with
    | false => exact .inl rfl
    | true => exact .inr ⟨[],rfl⟩
  | cons v vs => exact .inr ⟨_,rfl⟩

theorem takeSeg {s x : Bytes} (plain : 47 ∉ s) (opens : Opens x) :
    (s ++ x).takeWhile (· ≠ 47) = s ∧ (s ++ x).dropWhile (· ≠ 47) = x := by
  have all : ∀ c ∈ s, decide (c ≠ 47) = true := fun c mem => decide_eq_true fun is => plain (is ▸ mem)
  rw [List.takeWhile_append_of_pos all,List.dropWhile_append_of_pos all]
  rcases opens with rfl | ⟨y,rfl⟩
  · exact ⟨List.append_nil s,rfl⟩
  · exact ⟨List.append_nil s,rfl⟩

theorem matchEnd (fuel : Nat) {p q : Bytes} (params : List (Bytes × Bytes)) (ended : p = [] ∨ q = []) :
    matchGo fuel p q params = if p.dropWhile (· = 47) = [] ∧ q.dropWhile (· = 47) = [] then some params else none := by
  rcases ended with rfl | rfl
  · cases fuel <;> rfl
  · cases fuel <;> cases p <;> rfl

theorem slashesOff {c : UInt8} (other : c ≠ 47) (x : Bytes) : (c :: x).dropWhile (· = 47) ≠ [] := by
  rw [List.dropWhile_cons_of_neg (by rwa [decide_eq_true_eq])]
  exact List.cons_ne_nil c x

/-- A fixed segment is passed where the path has the same one. -/
theorem matchLit {s v x y : Bytes} (plain : 47 ∉ s ∧ 58 ∉ s) (apart : 47 ∉ v) (left : Opens x) (right : Opens y) {fuel : Nat}
    (params : List (Bytes × Bytes)) : matchGo (fuel + s.length) (s ++ x) (v ++ y) params =
      if s = v then matchGo fuel x y params else none := by
  induction s generalizing v with
  | nil => cases v with
    | nil => rfl
    | cons c v =>
      have other : c ≠ 47 := fun is => apart (is ▸ List.mem_cons_self)
      rw [if_neg (List.cons_ne_nil c v).symm,List.nil_append,List.length_nil,Nat.add_zero]
      rcases left with rfl | ⟨x,rfl⟩
      · rw [matchEnd _ _ (.inl rfl),if_neg fun both => slashesOff other (v ++ y) both.2]
      · cases fuel with
        | zero => rw [matchGo,if_neg fun both => slashesOff other (v ++ y) both.2]; exact nofun
        | succ fuel => rw [List.cons_append,matchGo,if_neg (by decide),if_pos other.symm]
  | cons a s ih =>
    have notSlash : a ≠ 47 := fun is => plain.1 (is ▸ List.mem_cons_self)
    have notColon : a ≠ 58 := fun is => plain.2 (is ▸ List.mem_cons_self)
    cases v with
    | nil =>
      rw [if_neg (List.cons_ne_nil a s),List.nil_append]
      rcases right with rfl | ⟨y,rfl⟩
      · rw [matchEnd _ _ (.inr rfl),List.cons_append,if_neg fun both => slashesOff notSlash (s ++ x) both.1]
      · rw [List.length_cons,← Nat.add_assoc,List.cons_append,matchGo,if_neg notColon,if_pos notSlash]
    | cons c v =>
      rw [List.length_cons,← Nat.add_assoc,List.cons_append,List.cons_append,matchGo,if_neg notColon]
      by_cases same : a = c
      · rw [if_neg (not_not.mpr same),ih ⟨fun mem => plain.1 (List.mem_cons_of_mem a mem),fun mem => plain.2 (List.mem_cons_of_mem a mem)⟩
          fun mem => apart (List.mem_cons_of_mem c mem),same]
        simp only [List.cons.injEq,true_and]
      · rw [if_pos same,if_neg fun is => same (List.cons.inj is).1]

/-- Segment by segment, where no segment of the path is empty. -/
theorem matchSegs {p : List (Seg Bytes)} (known : ∀ s ∈ p, SegPlain s) {vs : List Bytes} (plain : ∀ v ∈ vs, v ≠ [] ∧ 47 ∉ v)
    (slash : Bool) {fuel : Nat} (enough : (patternText p).length ≤ fuel) (params : List (Bytes × Bytes)) :
    matchGo fuel (patternText p) (vs.flatMap (47 :: ·) ++ if slash then [47] else []) params = (fits p vs).map (params ++ ·) := by
  induction p generalizing vs fuel params with
  | nil =>
    rw [show patternText [] = [] from rfl,matchEnd _ _ (.inl rfl)]
    cases vs with
    | nil =>
      rw [if_pos (by cases slash <;> exact ⟨rfl,rfl⟩),fits,Option.map_some,List.append_nil]
    | cons v vs =>
      obtain ⟨some_,noSlash⟩ := plain v List.mem_cons_self
      cases v with
      | nil => exact absurd rfl some_
      | cons c v => exact if_neg fun both => slashesOff (fun is => noSlash (is ▸ List.mem_cons_self)) _ both.2
  | cons s p ih =>
    have opens := patternOpens p
    have later := fun s mem => known s (List.mem_cons_of_mem _ mem)
    have is : patternText (s :: p) = 47 :: (segText s ++ patternText p) := List.flatMap_cons
    rw [is,List.length_cons,List.length_append] at enough
    rw [is]
    obtain ⟨fuel,rfl⟩ : ∃ k, fuel = k + 1 := ⟨fuel - 1,by omega⟩
    have off : (segText s ++ patternText p).dropWhile (· = 47) ≠ [] := by
      have := known s List.mem_cons_self
      cases s with
      | param n => exact slashesOff (by decide) _
      | lit s => cases s with
        | nil => exact absurd rfl this.1
        | cons c s => exact slashesOff (fun is => this.2.1 (is ▸ List.mem_cons_self)) _
    cases vs with
    | nil =>
      have nothing : fits (s :: p) ([] : List Bytes) = none := by cases s <;> rfl
      rw [nothing,Option.map_none]
      cases slash with
      | false => exact if_neg fun both => off both.1
      | true =>
        show (if (47 : UInt8) = 58 then _ else if (47 : UInt8) ≠ 47 then _ else _) = _
        rw [if_neg (by decide),if_neg (by decide),matchEnd _ _ (.inr rfl),if_neg fun both => off both.1]
    | cons v vs =>
      obtain ⟨some_,noSlash⟩ := plain v List.mem_cons_self
      have next := fun v mem => plain v (List.mem_cons_of_mem _ mem)
      have rest := pathOpens vs slash
      rw [List.flatMap_cons,List.cons_append,List.cons_append,List.append_assoc,matchGo,if_neg (by decide),if_neg (by decide)]
      cases s with
      | lit s =>
        have plain := known _ List.mem_cons_self
        rw [show fuel = fuel - s.length + s.length from (Nat.sub_add_cancel (by rw [segText] at enough; omega)).symm,segText,
          matchLit ⟨plain.2.1,plain.2.2⟩ noSlash opens rest,fits]
        by_cases same : s = v
        · rw [if_pos same,if_pos same]
          exact ih later next (by rw [segText] at enough; omega) params
        · rw [if_neg same,if_neg same]
          rfl
      | param n =>
        obtain ⟨name,small⟩ := known _ List.mem_cons_self
        cases v with
        | nil => exact absurd rfl some_
        | cons d v =>
          obtain ⟨fuel,rfl⟩ : ∃ k, fuel = k + 1 := ⟨fuel - 1,by rw [segText,List.length_cons] at enough; omega⟩
          obtain ⟨taken,dropped⟩ := takeSeg name opens
          obtain ⟨value,left⟩ := takeSeg noSlash rest
          rw [segText,List.cons_append,List.cons_append,matchGo,if_pos rfl,taken,dropped,if_neg (by omega)]
          rw [List.cons_append] at value left
          rw [value,left,ih later next (by rw [segText,List.length_cons] at enough; omega),fits,Option.map_map]
          congr 1
          funext ps
          exact List.append_assoc ..


/-! ### The table -/

/-- The registered pattern is one of plain segments, or `/`. -/
def Registered (r : Route) : Prop :=
  (∀ s ∈ segsOf r.pattern, SegPlain s) ∧ (r.pattern = patternText (segsOf r.pattern) ∨ r.pattern = [47])

instance (r : Route) : Decidable (Registered r) := inferInstanceAs (Decidable (_ ∧ _))

def publicPaths : List Bytes :=
  ["/","/style.css","/app.js","/api/auth/login","/api/auth/token","/metrics","/health","/api/triggers/:token"].map ascii

def publicHandlers : List Handler := [.uiHtml,.uiCss,.uiJs,.authToken,.metricsPrometheus,.health,.webhookTrigger]

/-- The list of paths opens the route where the list of handlers does. -/
def OpenAlike (r : Route) : Prop := r.pattern ∈ publicPaths ↔ r.handler ∈ publicHandlers

instance (r : Route) : Decidable (OpenAlike r) := inferInstanceAs (Decidable (_ ↔ _))

/-- What the table's own entries decide: no method stands for all, and no two routes of one method have a path in common. -/
def TableChecked : Prop :=
  (∀ r ∈ apiRegisterRoutes, Registered r ∧ r.method ≠ ascii "*" ∧ OpenAlike r) ∧
    apiRegisterRoutes.Pairwise fun r s => r.method = s.method → overlap (segsOf r.pattern) (segsOf s.pattern) = false

instance : Decidable TableChecked := inferInstanceAs (Decidable (_ ∧ _))

theorem tableChecked : TableChecked := by decide +kernel

theorem matchRoot (a : Address) : routeMatch [47] a.text = fits [] a.segs := by
  rw [Address.text]
  cases is : a.segs with
  | nil => cases a.slash <;> rfl
  | cons v vs =>
    obtain ⟨some_,noSlash,_⟩ := a.plain v (is ▸ List.mem_cons_self)
    cases v with
    | nil => exact absurd rfl some_
    | cons c v =>
      rw [routeMatch,List.flatMap_cons,List.cons_append,List.cons_append,show [(47 : UInt8)].length = 0 + 1 from rfl,matchGo,
        if_neg (by decide),if_neg (by decide),matchEnd _ _ (.inl rfl)]
      exact if_neg fun both => slashesOff (fun is => noSlash (is ▸ List.mem_cons_self)) _ both.2

theorem matchRegistered {r : Route} (known : Registered r) (a : Address) : routeMatch r.pattern a.text = fits (segsOf r.pattern) a.segs := by
  have plain : ∀ v ∈ a.segs, v ≠ [] ∧ 47 ∉ v := fun v mem => ⟨(a.plain v mem).1,(a.plain v mem).2.1⟩
  rcases known.2 with is | root
  · have matched := matchSegs known.1 plain a.slash (Nat.le_refl _) []
    rw [← is] at matched
    exact matched.trans (by cases fits (segsOf r.pattern) a.segs <;> rfl)
  · rw [root,matchRoot]
    rfl

theorem addressPlain (a : Address) : 63 ∉ a.text := by
  intro mem
  rcases List.mem_append.mp mem with mem | mem
  · obtain ⟨v,here,mem⟩ := List.mem_flatMap.mp mem
    rcases List.mem_cons.mp mem with is | mem
    · cases is
    · exact (a.plain v here).2.2 mem
  · cases slash : a.slash <;> rw [slash] at mem <;> simp at mem

theorem bareAddress (a : Address) (query : Option Bytes) : bare (a.text ++ query.elim [] (63 :: ·)) = a.text := by
  have short : a.text.length ≤ 1023 := by
    have := a.short
    have last : (if a.slash then [47] else [] : Bytes).length ≤ 1 := by cases a.slash <;> decide
    rw [Address.text,List.length_append]
    omega
  have all : ∀ c ∈ a.text, decide (c ≠ 63) = true := fun c mem => decide_eq_true fun is => addressPlain a (is ▸ mem)
  rw [bare,List.take_append,List.take_of_length_le short,List.takeWhile_append_of_pos all]
  cases query with
  | none => rw [Option.elim_none,List.take_nil,List.takeWhile_nil,List.append_nil]
  | some q =>
    rw [Option.elim_some]
    cases 1023 - a.text.length with
    | zero => exact List.append_nil _
    | succ k => exact List.append_nil _

/-- The order of the registrations decides nothing for a path as it is usually written: whatever comes behind the `?`,
the request goes to the one route of its method that the path fits, segment by segment, and to none otherwise. -/
theorem routeExact (method : Bytes) (a : Address) (query : Option Bytes) (r : Route) (params : List (Bytes × Bytes)) :
    route apiRegisterRoutes method (a.text ++ query.elim [] (63 :: ·)) = some (r,params) ↔
      r ∈ apiRegisterRoutes ∧ r.method = method ∧ fits (segsOf r.pattern) a.segs = some params := by
  have step : ∀ s ∈ apiRegisterRoutes, (if s.method = method ∨ s.method = ascii "*"
      then (routeMatch s.pattern (bare (a.text ++ query.elim [] (63 :: ·)))).map fun params => (s,params) else none) =
        if s.method = method then (fits (segsOf s.pattern) a.segs).map fun params => (s,params) else none := by
    intro s mem
    rw [bareAddress,matchRegistered (tableChecked.1 s mem).1]
    simp only [(tableChecked.1 s mem).2.1,or_false]
  rw [route,findApart]
  · constructor
    · rintro ⟨s,mem,is⟩
      rw [step s mem] at is
      split at is
      · obtain ⟨ps,fit,same⟩ := Option.map_eq_some_iff.mp is
        cases same
        exact ⟨mem,by assumption,fit⟩
      · cases is
    · rintro ⟨mem,is,fit⟩
      exact ⟨r,mem,by rw [step r mem,if_pos is,fit]; rfl⟩
  · refine tableChecked.2.imp_of_mem fun {s t} inS inT apart here there => ?_
    rw [step s inS] at here
    rw [step t inT] at there
    split at here
    · split at there
      · rename_i first second
        rw [Option.isSome_map] at here there
        have := overlaps here there
        rw [apart (first.trans second.symm)] at this
        cases this
      · cases there
    · cases here

end Napastak.Http
