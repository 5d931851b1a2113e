import Mathlib.Data.List.TakeWhile
import Napastak.Json
import Napastak.Split

/-! `scheduler.c`: pipelines read from and written to JSON. The run state that is not written (retry counters,
results of a run) is left out. -/
namespace Napastak.Scheduler
open Query Json
open Sql (JsonDoubles)
open Store (cstr)

/-- The string in a `char` array of `size` bytes. -/
abbrev CharBuf (size : Nat) := {s : Bytes // 0 ∉ s ∧ s.length ≤ size - 1}

/-- An array of `n` places and how many of them are taken. -/
abbrev AtMost (n : Nat) (α : Type) := {xs : List α // xs.length ≤ n}

/-- `strncpy(dst, s, sizeof(dst) - 1)` into zeroed bytes. -/
def strncpy (size : Nat) (s : Bytes) : CharBuf size :=
  ⟨(cstr s).take (size - 1),fun mem => by simpa using List.mem_takeWhile_imp (List.mem_of_mem_take mem),
    List.length_take_le ..⟩

/-- `n` bytes cut to the size, and the string they hold. -/
def memcpy (size : Nat) (s : Bytes) : CharBuf size :=
  ⟨cstr (s.take (size - 1)),fun mem => by simpa using List.mem_takeWhile_imp mem,
    Nat.le_trans (List.takeWhile_prefix _).length_le (List.length_take_le ..)⟩

def firstOf (n : Nat) {α : Type} (xs : List α) : AtMost n α := ⟨xs.take n,List.length_take_le ..⟩

/-- The strings of a step. -/
inductive StepText
  | id | name | connectorType | connectorConfig | connectionId | transformSql | targetTable | sqlTemplate | sqlParams
  | pythonCode | pythonFile | pythonContextDir | scalaCode
  | scd2BusinessKey | scd2EffectiveFromCol | scd2EffectiveToCol | scd2CurrentFlagCol | scd2VersionCol | scd2HashCol
  | scd2CompareColumns | scd2TransactionTime | scd2DeletedFlag | scd2IgnoredColumns
  | sinkEntity | sinkMode | matchRules | matchInputTable
  deriving DecidableEq

def StepText.size : StepText → Nat
  | .id | .connectorType | .connectionId => 64
  | .name | .targetTable | .matchInputTable => 128
  | .connectorConfig => 1024
  | .transformSql | .matchRules => 4096
  | .sqlTemplate | .scd2BusinessKey | .sinkEntity => 256
  | .sqlParams => 2048
  | .pythonCode | .scalaCode => 8192
  | .pythonFile | .pythonContextDir | .scd2CompareColumns | .scd2IgnoredColumns => 512
  | .scd2EffectiveFromCol | .scd2EffectiveToCol | .scd2CurrentFlagCol | .scd2VersionCol | .scd2HashCol
  | .scd2TransactionTime | .scd2DeletedFlag => 128
  | .sinkMode => 16

/-- The fields of a step in its JSON object. -/
inductive StepKey
  | text (f : StepText)
  | pythonTimeoutSec | scalaTimeoutSec | isSink | maxRetries | retryDelaySec | status | deps
  deriving DecidableEq

def StepText.key : StepText → Bytes
  | .id => ascii "id"
  | .name => ascii "name"
  | .connectorType => ascii "connector_type"
  | .connectorConfig => ascii "connector_config"
  | .connectionId => ascii "connection_id"
  | .transformSql => ascii "transform_sql"
  | .targetTable => ascii "target_table"
  | .sqlTemplate => ascii "sql_template"
  | .sqlParams => ascii "sql_params"
  | .pythonCode => ascii "python_code"
  | .pythonFile => ascii "python_file"
  | .pythonContextDir => ascii "python_context_dir"
  | .scalaCode => ascii "scala_code"
  | .scd2BusinessKey => ascii "scd2_business_key"
  | .scd2EffectiveFromCol => ascii "scd2_effective_from_col"
  | .scd2EffectiveToCol => ascii "scd2_effective_to_col"
  | .scd2CurrentFlagCol => ascii "scd2_current_flag_col"
  | .scd2VersionCol => ascii "scd2_version_col"
  | .scd2HashCol => ascii "scd2_hash_col"
  | .scd2CompareColumns => ascii "scd2_compare_columns"
  | .scd2TransactionTime => ascii "scd2_transaction_time"
  | .scd2DeletedFlag => ascii "scd2_deleted_flag"
  | .scd2IgnoredColumns => ascii "scd2_ignored_columns"
  | .sinkEntity => ascii "sink_entity"
  | .sinkMode => ascii "sink_mode"
  | .matchRules => ascii "match_rules"
  | .matchInputTable => ascii "match_input_table"

def StepKey.key : StepKey → Bytes
  | .text f => f.key
  | .pythonTimeoutSec => ascii "python_timeout_sec"
  | .scalaTimeoutSec => ascii "scala_timeout_sec"
  | .isSink => ascii "is_sink"
  | .maxRetries => ascii "max_retries"
  | .retryDelaySec => ascii "retry_delay_sec"
  | .status => ascii "status"
  | .deps => ascii "deps"

structure PipelineStep where
  text : (f : StepText) → CharBuf f.size
  pythonTimeoutSec : Int32
  scalaTimeoutSec : Int32
  isSink : Bool
  maxRetries : Int32
  retryDelaySec : Int32
  status : Int32
  deps : AtMost 64 Int32

inductive TriggerType
  | cron | webhook | fileArrival | manual
  deriving DecidableEq

structure PipelineTrigger where
  type : TriggerType
  cronExpr : CharBuf 64
  webhookToken : CharBuf 64
  webhookMethod : CharBuf 8
  watchDir : CharBuf 256
  filePattern : CharBuf 64

structure Pipeline where
  id : CharBuf 64
  name : CharBuf 128
  cron : CharBuf 64
  enabled : Bool
  webhookUrl : CharBuf 512
  webhookOn : CharBuf 32
  lastRunFailed : Int32
  lastRun : Int64
  nextRun : Int64
  runStatus : Int32
  steps : AtMost 64 PipelineStep
  triggers : AtMost 8 PipelineTrigger

def triggerTypeFromStr (s : Bytes) : TriggerType :=
  if s = [] then .cron
  else if s = ascii "cron" then .cron
  else if s = ascii "webhook" then .webhook
  else if s = ascii "file_arrival" then .fileArrival
  else .manual

def triggerTypeToStr : TriggerType → Bytes
  | .cron => ascii "cron"
  | .webhook => ascii "webhook"
  | .fileArrival => ascii "file_arrival"
  | .manual => ascii "manual"

/-! Reading. -/

section
variable {F : Type} [JsonDoubles F]

def jsonStr (v : Option (JVal F)) (dflt : Bytes) : Bytes :=
  match v with
  | some (.string s) => s
  | _ => dflt

def jsonInt (v : Option (JVal F)) (dflt : Int64) : Int64 :=
  match v with
  | some (.number d) => JsonDoubles.toLong d
  | _ => dflt

def jsonBool (v : Option (JVal F)) (dflt : Bool) : Bool :=
  match v with
  | some (.bool b) => b
  | _ => dflt

mutual
/-- `jval_write`; a key that is NULL ends the process. -/
def jvalWrite (j : Bytes) : JVal F → Option Bytes
  | .bool b => some (jbBool j b)
  | .number d => some (jbDouble j d)
  | .string s => some (jbStrn j s)
  | .array vs => (jvalWriteItems (jbArrBegin j) vs).map jbArrEnd
  | .object fs => (jvalWriteFields (jbObjBegin j) fs).map jbObjEnd
  | .null | .error => some (jbNull j)
def jvalWriteItems (j : Bytes) : List (JVal F) → Option Bytes
  | [] => some j
  | v :: vs => (jvalWrite j v).bind fun j => jvalWriteItems j vs
def jvalWriteField (j : Bytes) : Option Bytes × JVal F → Option Bytes
  | (none,_) => none
  | (some k,v) => jvalWrite (jbKey j (cstr k)) v
def jvalWriteFields (j : Bytes) : List (Option Bytes × JVal F) → Option Bytes
  | [] => some j
  | f :: fs => (jvalWriteField j f).bind fun j => jvalWriteFields j fs
end

def copyJvalStr (v : Option (JVal F)) (size : Nat) : Option (CharBuf size) :=
  match v with
  | none => some (memcpy size [])
  | some (.string s) => some (memcpy size s)
  | some (.object fs) => (jvalWrite [] (.object fs)).map fun s => memcpy size (cstr s)
  | some (.array vs) => (jvalWrite [] (.array vs)).map fun s => memcpy size (cstr s)
  | some _ => some (memcpy size [])

def readStep (s : JVal F) : Option PipelineStep :=
  (copyJvalStr (jsonGet s StepText.connectorConfig.key) StepText.connectorConfig.size).bind fun connectorConfig =>
    (copyJvalStr (jsonGet s StepText.sqlParams.key) StepText.sqlParams.size).map fun sqlParams =>
      { text := fun
          | .connectorConfig => connectorConfig
          | .sqlParams => sqlParams
          | .sinkMode => strncpy _ (jsonStr (jsonGet s StepText.sinkMode.key) (ascii "append"))
          | f => strncpy f.size (jsonStr (jsonGet s f.key) [])
        pythonTimeoutSec := (jsonInt (jsonGet s StepKey.pythonTimeoutSec.key) 300).toInt32
        scalaTimeoutSec := (jsonInt (jsonGet s StepKey.scalaTimeoutSec.key) 600).toInt32
        isSink := jsonBool (jsonGet s StepKey.isSink.key) false
        maxRetries := (jsonInt (jsonGet s StepKey.maxRetries.key) 3).toInt32
        retryDelaySec := (jsonInt (jsonGet s StepKey.retryDelaySec.key) 30).toInt32
        status := 0
        deps := firstOf 64 (match jsonGet s StepKey.deps.key with
          | some (.array ds) => ds.map fun d => (jsonInt (some d) 0).toInt32
          | _ => []) }

/-- The fields of a trigger in its JSON object. -/
inductive TriggerKey
  | type | cronExpr | webhookToken | webhookMethod | watchDir | filePattern
  deriving DecidableEq

def TriggerKey.key : TriggerKey → Bytes
  | .type => ascii "type"
  | .cronExpr => ascii "cron_expr"
  | .webhookToken => ascii "webhook_token"
  | .webhookMethod => ascii "webhook_method"
  | .watchDir => ascii "watch_dir"
  | .filePattern => ascii "file_pattern"

def readTrigger (t : JVal F) : Option PipelineTrigger :=
  match t with
  | .object _ =>
    some
      { type := triggerTypeFromStr (cstr (jsonStr (jsonGet t TriggerKey.type.key) (ascii "cron")))
        cronExpr := strncpy _ (jsonStr (jsonGet t TriggerKey.cronExpr.key) [])
        webhookToken := strncpy _ (jsonStr (jsonGet t TriggerKey.webhookToken.key) [])
        webhookMethod := strncpy _ (jsonStr (jsonGet t TriggerKey.webhookMethod.key) (ascii "POST"))
        watchDir := strncpy _ (jsonStr (jsonGet t TriggerKey.watchDir.key) [])
        filePattern := strncpy _ (jsonStr (jsonGet t TriggerKey.filePattern.key) (ascii "*")) }
  | _ => none

/-- The trigger made of the old `cron` field. -/
def cronTrigger (cron : CharBuf 64) : PipelineTrigger :=
  ⟨.cron,strncpy 64 cron.1,strncpy _ [],strncpy _ [],strncpy _ [],strncpy _ []⟩

/-- The fields of a pipeline in its JSON object. -/
inductive PipelineKey
  | id | name | cron | enabled | webhookUrl | webhookOn | lastRunFailed | lastRun | nextRun | status | steps | triggers
  deriving DecidableEq

def PipelineKey.key : PipelineKey → Bytes
  | .id => ascii "id"
  | .name => ascii "name"
  | .cron => ascii "cron"
  | .enabled => ascii "enabled"
  | .webhookUrl => ascii "webhook_url"
  | .webhookOn => ascii "webhook_on"
  | .lastRunFailed => ascii "last_run_failed"
  | .lastRun => ascii "last_run"
  | .nextRun => ascii "next_run"
  | .status => ascii "status"
  | .steps => ascii "steps"
  | .triggers => ascii "triggers"

def givenTriggers (root : JVal F) : List PipelineTrigger :=
  match jsonGet root PipelineKey.triggers.key with
  | some (.array ts) => (ts.take 8).filterMap readTrigger
  | _ => []

def readTriggers (root : JVal F) (cron : CharBuf 64) : AtMost 8 PipelineTrigger :=
  firstOf 8 (if (givenTriggers root).isEmpty ∧ cron.1 ≠ [] then [cronTrigger cron] else givenTriggers root)

def readSteps (root : JVal F) : Option (AtMost 64 PipelineStep) :=
  ((match jsonGet root PipelineKey.steps.key with
    | some (.array ss) => ss.take 64
    | _ => []).mapM readStep).map (firstOf 64)

/-- The object `root` read into a pipeline of zeroes. -/
def readPipeline (root : JVal F) : Option Pipeline :=
  (readSteps root).map fun steps =>
    let cron := strncpy 64 (jsonStr (jsonGet root PipelineKey.cron.key) [])
    { id := strncpy _ (jsonStr (jsonGet root PipelineKey.id.key) [])
      name := strncpy _ (jsonStr (jsonGet root PipelineKey.name.key) [])
      cron := cron
      enabled := jsonBool (jsonGet root PipelineKey.enabled.key) true
      webhookUrl := strncpy _ (jsonStr (jsonGet root PipelineKey.webhookUrl.key) [])
      webhookOn := strncpy _ (jsonStr (jsonGet root PipelineKey.webhookOn.key) (ascii "failure"))
      lastRunFailed := (jsonInt (jsonGet root PipelineKey.lastRunFailed.key) 0).toInt32
      lastRun := 0
      nextRun := 0
      runStatus := 0
      steps := steps
      triggers := readTriggers root cron }

/-- `some none` is the result -1. -/
def pipelineFromJson (F : Type) [JsonDoubles F] (n : Nat) (json : Bytes) : Option (Option Pipeline) :=
  (jsonParse n json : Option (JVal F)).bind fun root =>
    match root with
    | .object fs => (readPipeline (.object fs)).map some
    | _ => some none

end

/-! Writing. A field that is `none` is left out of its object. -/

def fieldsOf {κ : Type} (key : κ → Bytes) (written : κ → Option Tree) (order : List κ) : List (Bytes × Tree) :=
  order.filterMap fun k => (written k).map fun t => (key k,t)

def int (v : Int32) : Option Tree := some (.int v.toInt64)

def PipelineStep.always (st : PipelineStep) (f : StepText) : Option Tree := some (.str (st.text f).1)

def PipelineStep.whenSet (st : PipelineStep) (f : StepText) (t : Option Tree) : Option Tree := if (st.text f).1 = [] then none else t

def PipelineStep.written (st : PipelineStep) : StepKey → Option Tree
  | .text .id => st.always .id
  | .text .name => st.always .name
  | .text .connectorType => st.always .connectorType
  | .text .connectorConfig => st.always .connectorConfig
  | .text .transformSql => st.always .transformSql
  | .text .targetTable => st.always .targetTable
  | .text .sinkEntity => if st.isSink then st.always .sinkEntity else none
  | .text .sinkMode =>
    if st.isSink then some (.str (if (st.text .sinkMode).1 = [] then ascii "append" else (st.text .sinkMode).1)) else none
  | .text f => st.whenSet f (st.always f)
  | .pythonTimeoutSec => st.whenSet .pythonCode (int st.pythonTimeoutSec)
  | .scalaTimeoutSec => st.whenSet .scalaCode (int st.scalaTimeoutSec)
  | .isSink => if st.isSink then some (.bool st.isSink) else none
  | .maxRetries => int st.maxRetries
  | .retryDelaySec => int st.retryDelaySec
  | .status => int st.status
  | .deps => some (.arr (st.deps.1.map fun d => .int d.toInt64))

def StepKey.order : List StepKey :=
  [ .text .id, .text .name, .text .connectorType, .text .connectorConfig, .text .connectionId, .text .transformSql,
    .text .targetTable, .text .sqlTemplate, .text .sqlParams, .text .pythonCode, .pythonTimeoutSec, .text .pythonFile,
    .text .pythonContextDir, .text .scalaCode, .scalaTimeoutSec, .text .scd2BusinessKey, .text .scd2EffectiveFromCol,
    .text .scd2EffectiveToCol, .text .scd2CurrentFlagCol, .text .scd2VersionCol, .text .scd2HashCol,
    .text .scd2CompareColumns, .text .scd2TransactionTime, .text .scd2DeletedFlag, .text .scd2IgnoredColumns, .isSink,
    .text .sinkEntity, .text .sinkMode, .text .matchRules, .text .matchInputTable, .maxRetries, .retryDelaySec, .status,
    .deps]

def PipelineStep.tree (st : PipelineStep) : Tree := .obj (fieldsOf StepKey.key st.written StepKey.order)

def PipelineTrigger.written (t : PipelineTrigger) : TriggerKey → Option Tree
  | .type => some (.str (triggerTypeToStr t.type))
  | .cronExpr => if t.type = .cron then some (.str t.cronExpr.1) else none
  | .webhookToken => if t.type = .webhook then some (.str t.webhookToken.1) else none
  | .webhookMethod =>
    if t.type = .webhook then some (.str (if t.webhookMethod.1 = [] then ascii "POST" else t.webhookMethod.1)) else none
  | .watchDir => if t.type = .fileArrival then some (.str t.watchDir.1) else none
  | .filePattern => if t.type = .fileArrival then some (.str t.filePattern.1) else none

def TriggerKey.order : List TriggerKey := [ .type, .cronExpr, .webhookToken, .webhookMethod, .watchDir, .filePattern]

def PipelineTrigger.tree (t : PipelineTrigger) : Tree := .obj (fieldsOf TriggerKey.key t.written TriggerKey.order)

def Pipeline.written (p : Pipeline) : PipelineKey → Option Tree
  | .id => some (.str p.id.1)
  | .name => some (.str p.name.1)
  | .cron => some (.str p.cron.1)
  | .enabled => some (.bool p.enabled)
  | .webhookUrl => some (.str p.webhookUrl.1)
  | .webhookOn => some (.str p.webhookOn.1)
  | .lastRunFailed => int p.lastRunFailed
  | .lastRun => some (.int p.lastRun)
  | .nextRun => some (.int p.nextRun)
  | .status => int p.runStatus
  | .steps => some (.arr (p.steps.1.map PipelineStep.tree))
  | .triggers => some (.arr (p.triggers.1.map PipelineTrigger.tree))

def PipelineKey.order : List PipelineKey :=
  [ .id, .name, .cron, .enabled, .webhookUrl, .webhookOn, .lastRunFailed, .lastRun, .nextRun, .status, .steps, .triggers]

def Pipeline.tree (p : Pipeline) : Tree := .obj (fieldsOf PipelineKey.key p.written PipelineKey.order)

def pipelineToJson (p : Pipeline) : Bytes := p.tree.write []

end Napastak.Scheduler
