import Napastak.JsonTrip
import Napastak.Pipeline
import Mathlib.Data.List.Nodup

/-! One save and load of a pipeline. -/
namespace Napastak.Scheduler
open Query Json
open Sql (JsonDoubles)
open Store (cstr)

/-- The settings a step of its kind uses: others are at their defaults, and an empty sink mode is `append`. -/
def PipelineStep.settings (st : PipelineStep) : PipelineStep :=
  { st with
    text := fun
      | .sinkEntity => if st.isSink then st.text .sinkEntity else strncpy _ []
      | .sinkMode => if st.isSink ∧ (st.text .sinkMode).1 ≠ [] then st.text .sinkMode else strncpy _ (ascii "append")
      | f => st.text f
    pythonTimeoutSec := if (st.text .pythonCode).1 = [] ∧ (st.text .pythonFile).1 = [] then 300 else st.pythonTimeoutSec
    scalaTimeoutSec := if (st.text .scalaCode).1 = [] then 600 else st.scalaTimeoutSec
    status := 0 }

/-- The settings a trigger of its type uses: others are at their defaults, and an empty method is `POST`. -/
def PipelineTrigger.settings (t : PipelineTrigger) : PipelineTrigger where
  type := t.type
  cronExpr := if t.type = .cron then t.cronExpr else strncpy _ []
  webhookToken := if t.type = .webhook then t.webhookToken else strncpy _ []
  webhookMethod := if t.type = .webhook ∧ t.webhookMethod.1 ≠ [] then t.webhookMethod else strncpy _ (ascii "POST")
  watchDir := if t.type = .fileArrival then t.watchDir else strncpy _ []
  filePattern := if t.type = .fileArrival then t.filePattern else strncpy _ (ascii "*")

def AtMost.map {n : Nat} {α β : Type} (f : α → β) (xs : AtMost n α) : AtMost n β := ⟨xs.1.map f,by simpa using xs.2⟩

/-- A pipeline apart from the state of its runs. -/
def Pipeline.configuration (p : Pipeline) : Pipeline :=
  { p with
    lastRun := 0
    nextRun := 0
    runStatus := 0
    steps := AtMost.map PipelineStep.settings p.steps
    triggers := AtMost.map PipelineTrigger.settings p.triggers }

/-- What is left of a step when it is read back: the time limit of Python code goes with the code. -/
def PipelineStep.reread (st : PipelineStep) : PipelineStep :=
  {st.settings with pythonTimeoutSec := if (st.text .pythonCode).1 = [] then 300 else st.pythonTimeoutSec}

/-- An `int` is a double and comes back from it. -/
def CastsBack (F : Type) [JsonDoubles F] : Prop :=
  ∀ v : Int32, JsonDoubles.toLong (Doubles.ofInt v.toInt64.toInt : F) = v.toInt64

section Buffers

theorem cstrBuf {size : Nat} (b : CharBuf size) : cstr b.1 = b.1 := Store.cstrSelf b.2.1

theorem strncpyBuf {size : Nat} (b : CharBuf size) : strncpy size b.1 = b := by
  refine Subtype.ext ?_
  show (cstr b.1).take (size - 1) = b.1
  rw [cstrBuf,List.take_of_length_le b.2.2]

theorem memcpyBuf {size : Nat} (b : CharBuf size) : memcpy size b.1 = b := by
  refine Subtype.ext ?_
  show cstr (b.1.take (size - 1)) = b.1
  rw [List.take_of_length_le b.2.2,cstrBuf]

theorem emptyBuf {size : Nat} {b : CharBuf size} (h : b.1 = []) : strncpy size [] = b := by
  rw [← h,strncpyBuf]

theorem firstOfAll {n : Nat} {α : Type} (xs : AtMost n α) : firstOf n xs.1 = xs :=
  Subtype.ext (List.take_of_length_le xs.2)

end Buffers

section Objects

variable {F : Type} [Doubles F] {κ : Type} {key : κ → Bytes} {written : κ → Option Tree}

theorem fieldValuesMap (fs : List (Bytes × Tree)) : (fieldValues fs : List (Option Bytes × JVal F)) = fs.map fieldValue := by
  induction fs with
  | nil => rfl
  | cons f fs ih => rw [fieldValues,ih,List.map_cons]

theorem itemValuesMap (ts : List Tree) : (itemValues ts : List (JVal F)) = ts.map Tree.value := by
  induction ts with
  | nil => rfl
  | cons t ts ih => rw [itemValues,ih,List.map_cons]

theorem fieldsNone {a : κ} {order : List κ} (h : written a = none) :
    fieldsOf key written (a :: order) = fieldsOf key written order :=
  List.filterMap_cons_none (by rw [h]; rfl)

theorem fieldsSome {a : κ} {order : List κ} {t : Tree} (h : written a = some t) :
    fieldsOf key written (a :: order) = (key a,t) :: fieldsOf key written order :=
  List.filterMap_cons_some (by rw [h]; rfl)

def found (K : Bytes) (fs : List (Bytes × Tree)) : Option (JVal F) :=
  ((fs.map fieldValue).find? fun f : Option Bytes × JVal F => f.1.map cstr = some K).map (·.2)

theorem foundHere {K : Bytes} (same : cstr K = K) (t : Tree) (fs : List (Bytes × Tree)) :
    (found K ((K,t) :: fs) : Option (JVal F)) = some t.value := by
  unfold found
  rw [List.map_cons,fieldValue,List.find?_cons_of_pos (by simpa using same)]
  rfl

theorem foundLater {K L : Bytes} (ne : cstr L ≠ K) (t : Tree) (fs : List (Bytes × Tree)) :
    (found K ((L,t) :: fs) : Option (JVal F)) = found K fs := by
  unfold found
  rw [List.map_cons,fieldValue,List.find?_cons_of_neg (by simpa using ne)]

theorem foundNowhere {order : List κ} {K : Bytes} (absent : ∀ b ∈ order, cstr (key b) ≠ K) :
    (found K (fieldsOf key written order) : Option (JVal F)) = none := by
  induction order with
  | nil => rfl
  | cons a order ih =>
    have rest := ih fun b mem => absent b (List.mem_cons_of_mem _ mem)
    cases is : written a with
    | none => rw [fieldsNone is,rest]
    | some t => rw [fieldsSome is,foundLater (absent a List.mem_cons_self),rest]

/-- A field is found under its key exactly when it is written. -/
theorem getWritten {order : List κ} (distinct : (order.map key).Nodup) (whole : ∀ k ∈ order, cstr (key k) = key k) {k : κ}
    (mem : k ∈ order) :
    jsonGet (Tree.value (.obj (fieldsOf key written order)) : JVal F) (key k) = (written k).map Tree.value := by
  rw [Tree.value,jsonGet,fieldValuesMap]
  show found (key k) (fieldsOf key written order) = _
  induction order with
  | nil => cases mem
  | cons a order ih =>
    rw [List.map_cons,List.nodup_cons] at distinct
    have apart : ∀ b ∈ order, key b ≠ key a := fun b there same => distinct.1 (same ▸ List.mem_map_of_mem there)
    have rest : ∀ b ∈ order, cstr (key b) = key b := fun b there => whole b (List.mem_cons_of_mem _ there)
    have first : cstr (key a) = key a := whole a List.mem_cons_self
    rcases List.mem_cons.mp mem with rfl | later
    · cases is : written k with
      | none =>
        rw [fieldsNone is,foundNowhere fun b there => by rw [rest b there]; exact apart b there]
        rfl
      | some t =>
        rw [fieldsSome is,foundHere first]
        rfl
    · cases is : written a with
      | none => rw [fieldsNone is,ih distinct.2 rest later]
      | some t => rw [fieldsSome is,foundLater (by rw [first]; exact Ne.symm (apart k later)),ih distinct.2 rest later]

theorem plainFieldsOf {order : List κ} (keys : ∀ k ∈ order, PlainKey (key k)) (values : ∀ k t, written k = some t → t.Plain) :
    plainFields (fieldsOf key written order) := by
  induction order with
  | nil => trivial
  | cons a order ih =>
    have rest := ih fun k mem => keys k (List.mem_cons_of_mem _ mem)
    cases is : written a with
    | none => rwa [fieldsNone is]
    | some t =>
      rw [fieldsSome is]
      exact ⟨⟨keys a List.mem_cons_self,values a t is⟩,rest⟩

theorem plainMap {α : Type} {f : α → Tree} (plain : ∀ a, (f a).Plain) (xs : List α) : plainItems (xs.map f) := by
  induction xs with
  | nil => trivial
  | cons a xs ih => exact ⟨plain a,ih⟩

end Objects

section Keys

/-- Digits, letters and underscores. -/
def named (k : Bytes) : Bool := k.all fun c => 48 ≤ c ∧ c ≤ 122 ∧ c ≠ 92

theorem namedByte {k : Bytes} (h : named k = true) {c : UInt8} (mem : c ∈ k) : 48 ≤ c ∧ c ≤ 122 ∧ c ≠ 92 :=
  of_decide_eq_true (List.all_eq_true.mp h c mem)

theorem namedPlain {k : Bytes} (h : named k = true) : PlainKey k :=
  ⟨fun mem => absurd (namedByte h mem) (by decide),fun mem => absurd (namedByte h mem) (by decide)⟩

theorem namedWhole {k : Bytes} (h : named k = true) : cstr k = k :=
  Store.cstrSelf fun mem => absurd (namedByte h mem).1 (by decide)

/-- A key as a number, its bytes the digits. -/
def keyNumber (k : Bytes) : Nat := k.foldl (fun n c => n * 256 + c.toNat) 0

/-- What the keys of an object have to be, checked on their bytes once. -/
def keysCheck (ks : List Bytes) : Bool := ks.all named && decide (ks.map keyNumber).Nodup

theorem checkNamed {ks : List Bytes} (check : keysCheck ks = true) : ∀ k ∈ ks, named k = true :=
  List.all_eq_true.mp (Bool.and_eq_true_iff.mp check).1

theorem checkNodup {ks : List Bytes} (check : keysCheck ks = true) : ks.Nodup :=
  List.Nodup.of_map keyNumber (of_decide_eq_true (Bool.and_eq_true_iff.mp check).2)

theorem keysChecked : (keysCheck (StepKey.order.map StepKey.key) && keysCheck (TriggerKey.order.map TriggerKey.key) &&
    keysCheck (PipelineKey.order.map PipelineKey.key)) = true := by decide +kernel

theorem stepCheck : keysCheck (StepKey.order.map StepKey.key) = true :=
  (Bool.and_eq_true_iff.mp (Bool.and_eq_true_iff.mp keysChecked).1).1

theorem triggerCheck : keysCheck (TriggerKey.order.map TriggerKey.key) = true :=
  (Bool.and_eq_true_iff.mp (Bool.and_eq_true_iff.mp keysChecked).1).2

theorem pipelineCheck : keysCheck (PipelineKey.order.map PipelineKey.key) = true := (Bool.and_eq_true_iff.mp keysChecked).2

theorem stepNamed : ∀ k ∈ StepKey.order, named k.key = true := fun _ mem => checkNamed stepCheck _ (List.mem_map_of_mem mem)

theorem triggerNamed : ∀ k ∈ TriggerKey.order, named k.key = true := fun _ mem =>
  checkNamed triggerCheck _ (List.mem_map_of_mem mem)

theorem pipelineNamed : ∀ k ∈ PipelineKey.order, named k.key = true := fun _ mem =>
  checkNamed pipelineCheck _ (List.mem_map_of_mem mem)

theorem stepKeys : (StepKey.order.map StepKey.key).Nodup := checkNodup stepCheck

theorem triggerKeys : (TriggerKey.order.map TriggerKey.key).Nodup := checkNodup triggerCheck

theorem pipelineKeys : (PipelineKey.order.map PipelineKey.key).Nodup := checkNodup pipelineCheck

theorem stepMem (k : StepKey) : k ∈ StepKey.order := by
  cases k with
  | text f => cases f <;> decide
  | _ => decide

theorem triggerMem (k : TriggerKey) : k ∈ TriggerKey.order := by cases k <;> decide

theorem pipelineMem (k : PipelineKey) : k ∈ PipelineKey.order := by cases k <;> decide

end Keys

section Steps

variable {F : Type} [JsonDoubles F] {st : PipelineStep}

theorem stepGet (st : PipelineStep) (k : StepKey) :
    jsonGet (st.tree.value : JVal F) k.key = (st.written k).map Tree.value := getWritten stepKeys (fun k mem => namedWhole (stepNamed k mem)) (stepMem k)

/-- A string written always or when set is read back. -/
theorem textBack {f : StepText} (h : st.written (.text f) = st.always f ∨ st.written (.text f) = st.whenSet f (st.always f)) :
    strncpy f.size (jsonStr (jsonGet (st.tree.value : JVal F) f.key) []) = st.text f := by
  have got : jsonGet (st.tree.value : JVal F) f.key = _ := stepGet st (.text f)
  rw [got]
  rcases h with is | is
  · rw [is]
    exact strncpyBuf _
  · rw [is,PipelineStep.whenSet]
    split
    · rename_i unset
      exact emptyBuf unset
    · exact strncpyBuf _

theorem memoryBack {f : StepText} (h : st.written (.text f) = st.always f ∨ st.written (.text f) = st.whenSet f (st.always f)) :
    copyJvalStr (jsonGet (st.tree.value : JVal F) f.key) f.size = some (st.text f) := by
  have got : jsonGet (st.tree.value : JVal F) f.key = _ := stepGet st (.text f)
  rw [got]
  rcases h with is | is
  · rw [is]
    exact congrArg some (memcpyBuf _)
  · rw [is,PipelineStep.whenSet]
    split
    · rename_i unset
      refine congrArg some ?_
      rw [← unset,memcpyBuf]
    · exact congrArg some (memcpyBuf _)

theorem intBack (casts : CastsBack F) (v : Int32) (dflt : Int64) :
    (jsonInt ((int v).map Tree.value : Option (JVal F)) dflt).toInt32 = v := by
  show (JsonDoubles.toLong (Doubles.ofInt v.toInt64.toInt : F)).toInt32 = v
  rw [casts,Int32.toInt32_toInt64]

theorem depsBack (casts : CastsBack F) (ds : List Int32) :
    (itemValues (ds.map fun d => Tree.int d.toInt64)).map (fun d : JVal F => (jsonInt (some d) 0).toInt32) = ds := by
  rw [itemValuesMap,List.map_map,List.map_map]
  refine (List.map_congr_left fun d _ => ?_).trans (List.map_id ds)
  exact intBack casts d 0

theorem stepReread (casts : CastsBack F) (st : PipelineStep) : readStep (st.tree.value : JVal F) = some st.reread := by
  unfold readStep
  rw [memoryBack (.inl rfl),Option.bind_some,memoryBack (.inr rfl),Option.map_some]
  refine congrArg some ?_
  unfold PipelineStep.reread PipelineStep.settings
  dsimp only
  rw [PipelineStep.mk.injEq]
  refine ⟨?_,?_,?_,?_,?_,?_,?_,?_⟩
  · funext f
    cases f
    case connectorConfig => rfl
    case sqlParams => rfl
    case sinkEntity =>
      dsimp only
      have got : jsonGet (st.tree.value : JVal F) StepText.sinkEntity.key = _ := stepGet st (.text .sinkEntity)
      rw [got,PipelineStep.written]
      split
      · exact strncpyBuf _
      · rfl
    case sinkMode =>
      dsimp only
      have got : jsonGet (st.tree.value : JVal F) StepText.sinkMode.key = _ := stepGet st (.text .sinkMode)
      rw [got,PipelineStep.written]
      cases sink : st.isSink with
      | false => rfl
      | true =>
        by_cases unset : (st.text .sinkMode).1 = []
        · rw [if_pos rfl,if_pos unset,if_neg fun both => both.2 unset]
          rfl
        · rw [if_pos rfl,if_neg unset,if_pos ⟨rfl,unset⟩]
          exact strncpyBuf _
    all_goals first | exact textBack (.inl rfl) | exact textBack (.inr rfl)
  · rw [stepGet,PipelineStep.written,PipelineStep.whenSet]
    split
    · rfl
    · exact intBack casts _ _
  · rw [stepGet,PipelineStep.written,PipelineStep.whenSet]
    split
    · rfl
    · exact intBack casts _ _
  · rw [stepGet,PipelineStep.written]
    cases st.isSink <;> rfl
  · rw [stepGet]
    exact intBack casts _ _
  · rw [stepGet]
    exact intBack casts _ _
  · rfl
  · rw [stepGet,PipelineStep.written]
    show firstOf 64 ((itemValues (st.deps.1.map fun d => Tree.int d.toInt64)).map _) = st.deps
    rw [depsBack casts,firstOfAll]

end Steps

section Triggers

variable {F : Type} [JsonDoubles F]

theorem triggerGet (t : PipelineTrigger) (k : TriggerKey) :
    jsonGet (t.tree.value : JVal F) k.key = (t.written k).map Tree.value := getWritten triggerKeys (fun k mem => namedWhole (triggerNamed k mem)) (triggerMem k)

theorem typeBack (type : TriggerType) : triggerTypeFromStr (cstr (triggerTypeToStr type)) = type := by cases type <;> decide

/-- A string written under a condition is read back or is at its default. -/
theorem conditionBack {c : Prop} [Decidable c] {size : Nat} (b : CharBuf size) (dflt : Bytes) :
    strncpy size (jsonStr (Option.map Tree.value (if c then some (.str b.1) else none) : Option (JVal F)) dflt) =
      if c then b else strncpy size dflt := by
  split
  · exact strncpyBuf b
  · rfl

theorem triggerReread (t : PipelineTrigger) : readTrigger (t.tree.value : JVal F) = some t.settings := by
  unfold PipelineTrigger.settings
  show some _ = some _
  refine congrArg some ?_
  rw [PipelineTrigger.mk.injEq]
  refine ⟨?_,?_,?_,?_,?_,?_⟩
  · show triggerTypeFromStr (cstr (jsonStr (jsonGet (t.tree.value : JVal F) TriggerKey.type.key) _)) = _
    rw [triggerGet]
    exact typeBack t.type
  · show strncpy _ (jsonStr (jsonGet (t.tree.value : JVal F) TriggerKey.cronExpr.key) _) = _
    rw [triggerGet]
    exact conditionBack t.cronExpr []
  · show strncpy _ (jsonStr (jsonGet (t.tree.value : JVal F) TriggerKey.webhookToken.key) _) = _
    rw [triggerGet]
    exact conditionBack t.webhookToken []
  · show strncpy _ (jsonStr (jsonGet (t.tree.value : JVal F) TriggerKey.webhookMethod.key) _) = _
    rw [triggerGet,PipelineTrigger.written]
    by_cases hook : t.type = .webhook
    · by_cases unset : t.webhookMethod.1 = []
      · rw [if_pos hook,if_pos unset,if_neg fun both => both.2 unset]
        rfl
      · rw [if_pos hook,if_neg unset,if_pos ⟨hook,unset⟩]
        exact strncpyBuf _
    · rw [if_neg hook,if_neg fun both => hook both.1]
      rfl
  · show strncpy _ (jsonStr (jsonGet (t.tree.value : JVal F) TriggerKey.watchDir.key) _) = _
    rw [triggerGet]
    exact conditionBack t.watchDir []
  · show strncpy _ (jsonStr (jsonGet (t.tree.value : JVal F) TriggerKey.filePattern.key) _) = _
    rw [triggerGet]
    exact conditionBack t.filePattern _

end Triggers

section Pipelines

variable {F : Type} [JsonDoubles F]

theorem pipelineGet (p : Pipeline) (k : PipelineKey) :
    jsonGet (p.tree.value : JVal F) k.key = (p.written k).map Tree.value := getWritten pipelineKeys (fun k mem => namedWhole (pipelineNamed k mem)) (pipelineMem k)

theorem mapMBack {α β : Type} {read : JVal F → Option β} {tree : α → Tree} {back : α → β}
    (h : ∀ a, read (tree a).value = some (back a)) (xs : List α) :
    ((itemValues (xs.map tree)).mapM read : Option (List β)) = some (xs.map back) := by
  induction xs with
  | nil => rfl
  | cons a xs ih =>
    rw [List.map_cons,itemValues,List.mapM_cons,h,ih]
    rfl

theorem filterMapBack {α β : Type} {read : JVal F → Option β} {tree : α → Tree} {back : α → β}
    (h : ∀ a, read (tree a).value = some (back a)) (xs : List α) :
    (itemValues (xs.map tree)).filterMap read = xs.map back := by
  induction xs with
  | nil => rfl
  | cons a xs ih => rw [List.map_cons,itemValues,List.filterMap_cons_some (h a),ih,List.map_cons]

theorem itemCount {n : Nat} {α : Type} (tree : α → Tree) (xs : AtMost n α) :
    (itemValues (xs.1.map tree) : List (JVal F)).take n = itemValues (xs.1.map tree) := by
  refine List.take_of_length_le ?_
  rw [itemValuesMap,List.length_map,List.length_map]
  exact xs.2

theorem stepsBack (casts : CastsBack F) (p : Pipeline) :
    readSteps (p.tree.value : JVal F) = some (AtMost.map PipelineStep.reread p.steps) := by
  unfold readSteps
  rw [pipelineGet]
  show (((itemValues (p.steps.1.map PipelineStep.tree)).take 64).mapM readStep : Option _).map (firstOf 64) = _
  rw [itemCount,mapMBack (stepReread casts)]
  exact congrArg some (firstOfAll (AtMost.map PipelineStep.reread p.steps))

theorem givenBack (p : Pipeline) : givenTriggers (p.tree.value : JVal F) = p.triggers.1.map PipelineTrigger.settings := by
  unfold givenTriggers
  rw [pipelineGet]
  show ((itemValues (p.triggers.1.map PipelineTrigger.tree)).take 8).filterMap readTrigger = _
  rw [itemCount,filterMapBack triggerReread]

theorem triggersBack (p : Pipeline) (triggered : p.triggers.1 = [] → p.cron.1 = []) :
    readTriggers (p.tree.value : JVal F) p.cron = AtMost.map PipelineTrigger.settings p.triggers := by
  unfold readTriggers
  rw [givenBack,if_neg]
  · exact firstOfAll (AtMost.map PipelineTrigger.settings p.triggers)
  · rintro ⟨none,cron⟩
    rw [List.isEmpty_iff,List.map_eq_nil_iff] at none
    exact cron (triggered none)

omit [JsonDoubles F] in
/-- A pipeline without triggers has no schedule either. -/
theorem readTriggered {root : JVal F} {cron : CharBuf 64} (none : (readTriggers root cron).1 = []) : cron.1 = [] := by
  by_contra scheduled
  unfold readTriggers firstOf at none
  dsimp only at none
  split at none
  · contradiction
  · rename_i given
    have read : givenTriggers root = [] := (List.take_eq_nil_iff.mp none).resolve_left (by decide)
    exact given ⟨by rw [read]; rfl,scheduled⟩

def Pipeline.reread (p : Pipeline) : Pipeline :=
  {p.configuration with steps := AtMost.map PipelineStep.reread p.steps}

theorem pipelineReread (casts : CastsBack F) (p : Pipeline) (triggered : p.triggers.1 = [] → p.cron.1 = []) :
    readPipeline (p.tree.value : JVal F) = some p.reread := by
  have cron : strncpy 64 (jsonStr (jsonGet (p.tree.value : JVal F) PipelineKey.cron.key) []) = p.cron := by
    rw [pipelineGet]
    exact strncpyBuf _
  unfold readPipeline
  rw [stepsBack casts,Option.map_some,cron]
  dsimp only
  rw [triggersBack p triggered]
  refine congrArg some ?_
  unfold Pipeline.reread Pipeline.configuration
  dsimp only
  rw [Pipeline.mk.injEq]
  simp only [pipelineGet]
  exact ⟨strncpyBuf _,strncpyBuf _,trivial,rfl,strncpyBuf _,strncpyBuf _,intBack casts _ _,trivial,trivial,trivial,trivial,
    trivial⟩

end Pipelines

section Configuration

theorem settingsText (st : PipelineStep) : st.settings.settings.text = st.settings.text := by
  funext f
  cases f
  case sinkEntity =>
    unfold PipelineStep.settings
    dsimp only
    split <;> rfl
  case sinkMode =>
    unfold PipelineStep.settings
    dsimp only
    by_cases set : st.isSink ∧ (st.text .sinkMode).1 ≠ []
    · rw [if_pos set,if_pos set]
    · rw [if_neg set,ite_self]
  all_goals rfl

/-- A step keeps its settings exactly when the time limit of Python code in a file is the default. -/
theorem rereadSettings (st : PipelineStep) : st.reread.settings = st.settings ↔
    ((st.text .pythonCode).1 = [] → (st.text .pythonFile).1 ≠ [] → st.pythonTimeoutSec = 300) := by
  have limits : st.reread.settings.pythonTimeoutSec = if (st.text .pythonCode).1 = [] ∧ (st.text .pythonFile).1 = [] then 300
      else if (st.text .pythonCode).1 = [] then 300 else st.pythonTimeoutSec := rfl
  have limit : st.settings.pythonTimeoutSec =
      if (st.text .pythonCode).1 = [] ∧ (st.text .pythonFile).1 = [] then 300 else st.pythonTimeoutSec := rfl
  constructor
  · intro same code file
    have kept := congrArg PipelineStep.pythonTimeoutSec same
    rw [limits,limit,if_neg fun both => file both.2,if_pos code,if_neg fun both => file both.2] at kept
    exact kept.symm
  · intro default
    have python : st.reread.settings.pythonTimeoutSec = st.settings.pythonTimeoutSec := by
      rw [limits,limit]
      split
      · rfl
      · rename_i used
        split
        · rename_i code
          exact (default code fun file => used ⟨code,file⟩).symm
        · rfl
    have scala : st.reread.settings.scalaTimeoutSec = st.settings.scalaTimeoutSec := by
      show (if (st.text .scalaCode).1 = [] then 600 else if (st.text .scalaCode).1 = [] then 600 else st.scalaTimeoutSec) =
        if (st.text .scalaCode).1 = [] then 600 else st.scalaTimeoutSec
      split <;> rfl
    calc st.reread.settings
        = ⟨st.reread.settings.text,st.reread.settings.pythonTimeoutSec,st.reread.settings.scalaTimeoutSec,st.isSink,
            st.maxRetries,st.retryDelaySec,0,st.deps⟩ := rfl
      _ = st.settings := by
        rw [python,scala,show st.reread.settings.text = st.settings.text from settingsText st]
        rfl

theorem iteTwice {c : Prop} [Decidable c] {α : Type} (a b : α) :
    (if c then if c then a else b else b) = if c then a else b := by
  split <;> rfl

theorem triggerSettings (t : PipelineTrigger) : t.settings.settings = t.settings := by
  unfold PipelineTrigger.settings
  rw [PipelineTrigger.mk.injEq]
  refine ⟨rfl,iteTwice _ _,iteTwice _ _,?_,iteTwice _ _,iteTwice _ _⟩
  by_cases set : t.type = .webhook ∧ t.webhookMethod.1 ≠ []
  · rw [if_pos set,if_pos set]
  · rw [if_neg set,ite_self]

theorem mapTwice {n : Nat} {α : Type} {f g : α → α} (xs : AtMost n α) :
    AtMost.map f (AtMost.map g xs) = AtMost.map f xs ↔ ∀ a ∈ xs.1, f (g a) = f a := by
  rw [Subtype.ext_iff]
  show (xs.1.map g).map f = xs.1.map f ↔ _
  rw [List.map_map,List.map_inj_left]
  rfl

/-- The time limits a pipeline keeps: with Python code in a file and none in the step the limit is the default. -/
def Pipeline.Kept (p : Pipeline) : Prop :=
  ∀ st ∈ p.steps.1, (st.text .pythonCode).1 = [] → (st.text .pythonFile).1 ≠ [] → st.pythonTimeoutSec = 300

theorem rereadConfiguration (p : Pipeline) : p.reread.configuration = p.configuration ↔ p.Kept := by
  have triggers : AtMost.map PipelineTrigger.settings (AtMost.map PipelineTrigger.settings p.triggers) =
      AtMost.map PipelineTrigger.settings p.triggers := (mapTwice p.triggers).mpr fun t _ => triggerSettings t
  have steps := mapTwice (f := PipelineStep.settings) (g := PipelineStep.reread) p.steps
  have whole : p.reread.configuration = p.configuration ↔
      AtMost.map PipelineStep.settings (AtMost.map PipelineStep.reread p.steps) = AtMost.map PipelineStep.settings p.steps := by
    constructor
    · exact congrArg Pipeline.steps
    · intro same
      unfold Pipeline.reread Pipeline.configuration
      dsimp only
      rw [same,triggers]
  rw [whole,steps]
  exact forall₂_congr fun st _ => rereadSettings st

end Configuration

section Trip

variable {F : Type} [JsonDoubles F]

omit [JsonDoubles F]

/-- Every tree an option may hold is plain. -/
def Holds (o : Option Tree) : Prop := ∀ t, o = some t → t.Plain

theorem holdsNone : Holds none := fun _ is => nomatch is

theorem holdsSome {t : Tree} (plain : t.Plain) : Holds (some t) := by
  rintro _ ⟨⟩
  exact plain

theorem holdsIf {c : Prop} [Decidable c] {a b : Option Tree} (left : Holds a) (right : Holds b) : Holds (if c then a else b) := by
  split
  · exact left
  · exact right

theorem stepTreePlain (st : PipelineStep) : st.tree.Plain := by
  have always : ∀ f, Holds (st.always f) := fun f => holdsSome trivial
  have whenSet : ∀ f o, Holds o → Holds (st.whenSet f o) := fun f o plain => holdsIf holdsNone plain
  have whole : ∀ v, Holds (int v) := fun v => holdsSome trivial
  refine plainFieldsOf (fun k mem => namedPlain (stepNamed k mem)) fun k => ?_
  show Holds (st.written k)
  cases k with
  | text f =>
    cases f
    case sinkEntity => exact holdsIf (always _) holdsNone
    case sinkMode => exact holdsIf (holdsSome trivial) holdsNone
    all_goals first | exact always _ | exact whenSet _ _ (always _)
  | pythonTimeoutSec => exact whenSet _ _ (whole _)
  | scalaTimeoutSec => exact whenSet _ _ (whole _)
  | isSink => exact holdsIf (holdsSome trivial) holdsNone
  | maxRetries => exact whole _
  | retryDelaySec => exact whole _
  | status => exact whole _
  | deps => exact holdsSome (plainMap (f := fun d : Int32 => Tree.int d.toInt64) (fun _ => trivial) _)

theorem triggerTreePlain (t : PipelineTrigger) : t.tree.Plain := by
  refine plainFieldsOf (fun k mem => namedPlain (triggerNamed k mem)) fun k => ?_
  show Holds (t.written k)
  cases k with
  | type => exact holdsSome trivial
  | _ => exact holdsIf (holdsSome trivial) holdsNone

theorem pipelineTreePlain (p : Pipeline) : p.tree.Plain := by
  refine plainFieldsOf (fun k mem => namedPlain (pipelineNamed k mem)) fun k => ?_
  show Holds (p.written k)
  cases k with
  | steps => exact holdsSome (plainMap stepTreePlain _)
  | triggers => exact holdsSome (plainMap triggerTreePlain _)
  | _ => exact holdsSome trivial

end Trip

section Trip

variable {F : Type} [JsonDoubles F] {n : Nat} {json : Bytes} {p : Pipeline}

theorem fromJsonTriggered (h : pipelineFromJson F n json = some (some p)) : p.triggers.1 = [] → p.cron.1 = [] := by
  unfold pipelineFromJson at h
  obtain ⟨root,_,h⟩ := Option.bind_eq_some_iff.mp h
  split at h
  · obtain ⟨q,read,same⟩ := Option.map_eq_some_iff.mp h
    cases same
    obtain ⟨steps,_,rfl⟩ := Option.map_eq_some_iff.mp read
    exact readTriggered
  · cases h

/-- A written pipeline is read as the pipeline without the limits that went with absent code. -/
theorem readWritten (reads : ReadsWhole F) (casts : CastsBack F) (p : Pipeline) (triggered : p.triggers.1 = [] → p.cron.1 = [])
    (fuel : 3 * (pipelineToJson p).length ≤ n) : pipelineFromJson F n (pipelineToJson p) = some (some p.reread) := by
  unfold pipelineToJson at fuel ⊢
  rw [writeText,jbComma,List.getLast?_nil,List.nil_append] at fuel ⊢
  have read := valueRead reads p.tree (pipelineTreePlain p) n [] fuel (.inl rfl)
  rw [List.append_nil] at read
  unfold pipelineFromJson
  rw [jsonParse,read,Option.map_some,Option.bind_some]
  show (readPipeline (p.tree.value : JVal F)).map some = _
  rw [pipelineReread casts p triggered]
  rfl

/-- One save and load of a pipeline keeps its configuration exactly when it has no own limit for Python in a file. -/
theorem savedConfiguration (reads : ReadsWhole F) (casts : CastsBack F) (h : pipelineFromJson F n json = some (some p)) :
    ∃ q, (∀ k, 3 * (pipelineToJson p).length ≤ k → pipelineFromJson F k (pipelineToJson p) = some (some q)) ∧
      (q.configuration = p.configuration ↔ p.Kept) :=
  ⟨p.reread,fun _ fuel => readWritten reads casts p (fromJsonTriggered h) fuel,rereadConfiguration p⟩

end Trip

/-- Whole numbers, as the doubles of descriptions that have no others. -/
instance : JsonDoubles Int where
  toLong := Int64.ofInt
  inLong d := decide (-9200000000000000000 ≤ d ∧ d ≤ 9200000000000000000)
  printG _ d := lld (Int64.ofInt d)
  neg d := -d
  finite _ := true

theorem wholeCasts : CastsBack Int := fun _ => Int64.ofInt_toInt _

/-- A step that runs a file, with a limit of its own. -/
def fileStep : Bytes := ascii "\x7b\"steps\":[\x7b\"python_file\":\"s.py\",\"python_timeout_sec\":60\x7d]\x7d"

theorem fileStepLimit : ((pipelineFromJson Int 200 fileStep).any fun r => r.any fun p => p.steps.1.any fun st =>
    (st.text .pythonCode).1 = [] ∧ (st.text .pythonFile).1 ≠ [] ∧ st.pythonTimeoutSec ≠ 300) = true := by decide +kernel

theorem fileStepRead : ∃ p, pipelineFromJson Int 200 fileStep = some (some p) ∧ ¬ p.Kept := by
  obtain ⟨r,read,some_⟩ := (Option.any_eq_true _ _).mp fileStepLimit
  obtain ⟨p,rfl,limit⟩ := (Option.any_eq_true _ _).mp some_
  obtain ⟨st,mem,own⟩ := List.any_eq_true.mp limit
  obtain ⟨code,file,limit⟩ := of_decide_eq_true own
  exact ⟨p,read,fun kept => limit (kept st mem code file)⟩

/-- The limit of a Python file is lost with one save and load. -/
theorem limitLost : ¬ ∀ n json p, pipelineFromJson Int n json = some (some p) →
    ∃ q k, (∀ n, k ≤ n → pipelineFromJson Int n (pipelineToJson p) = some (some q)) ∧ q.configuration = p.configuration := by
  intro claim
  obtain ⟨p,read,limit⟩ := fileStepRead
  obtain ⟨q,k,back,same⟩ := claim 200 fileStep p read
  have again := readWritten (n := k + 3 * (pipelineToJson p).length) wholeReads wholeCasts p (fromJsonTriggered read) (by omega)
  rw [back _ (by omega)] at again
  cases again
  exact limit ((rereadConfiguration p).mp same)

theorem savedConfigurationSome : ∃ p q, pipelineFromJson Int 200 fileStep = some (some p) ∧
    (∀ k, 3 * (pipelineToJson p).length ≤ k → pipelineFromJson Int k (pipelineToJson p) = some (some q)) ∧
      (q.configuration = p.configuration ↔ p.Kept) := by
  obtain ⟨p,read,_⟩ := fileStepRead
  obtain ⟨q,saved⟩ := savedConfiguration wholeReads wholeCasts read
  exact ⟨p,q,read,saved⟩

end Napastak.Scheduler
