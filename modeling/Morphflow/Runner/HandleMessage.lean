import Morphflow.Domain.PyNumber
import Morphflow.Domain.PyText
import Morphflow.Foundation.KeyedTable

/-!
# One message of the runner

`_handle_message` skips a retry message that another role wrote, calls the handler, and after a
failure publishes the value again: to the retry topic with a higher retry count and the time before
which it is not to be handled, or to the dead letters once the count is spent. What the handler
does is left open here: `afterHandler` is the continuation from its answer.

A header value is modelled as the text its bytes decode to. The delay is computed on exact
rationals; where floats overflow, the call raises before it publishes.

## Main definitions

* `RunnerSettings`, `Message`, `Publication`.
* `decodeHeaders`, `parseRetryCount`, `retryDueAt`, `computeRetryBackoffSeconds`.
* `Message.skipped`, `Message.afterHandler`.
-/

namespace Morphflow

/-- The headers of a record, in order; a value may be null. -/
abbrev RawHeaders := List (String × Option String)

/-- The headers by name. -/
abbrev DecodedHeaders := KeyedTable String String

def retryCountHeader : String := "retry-count"

def errorReasonHeader : String := "error-reason"

def originalTopicHeader : String := "original-topic"

def retryAtHeader : String := "retry-at"

/-- What the runner reads of the settings, and its topics. -/
structure RunnerSettings where
  consumeTopic : String
  retryTopic : String
  kafkaDlqTopic : String
  retryMaxCount : ℤ
  retryBackoffSeconds : ℚ
  retryBackoffMultiplier : ℚ
  retryBackoffMaxSeconds : ℚ

/-- A consumed record with a value of type `V`. -/
structure Message (V : Type*) where
  topic : String
  offset : ℕ
  value : V
  headers : RawHeaders

/-- The arguments of a call of `publish`. -/
structure Publication (V : Type*) where
  topic : String
  value : V
  headers : List (String × String)

/-! ### Headers -/

/-- `_decode_headers`: null values are left out and the last value of a name counts. -/
def decodeHeaders (headers : RawHeaders) : DecodedHeaders :=
  headers.foldl (fun decoded h => match h.2 with
    | none => decoded
    | some value => decoded.set h.1 value) fun _ => none

/-- Headers as they are on the record. -/
def rawHeaders (headers : List (String × String)) : RawHeaders :=
  headers.map fun h => (h.1, some h.2)

/-- `_parse_retry_count`. -/
def parseRetryCount (headers : DecodedHeaders) : ℕ :=
  match pyInt? ((headers retryCountHeader).getD "0") with
  | none => 0
  | some value => value.toNat

/-- `_retry_due_at`. -/
def retryDueAt (headers : DecodedHeaders) : ℤ :=
  match headers retryAtHeader with
  | none => 0
  | some raw => (pyInt? raw).getD 0

/-- `_compute_retry_backoff_seconds`. -/
def computeRetryBackoffSeconds (retryCount : ℕ) (base multiplier maxSeconds : ℚ) : ℚ :=
  min (base * multiplier ^ (max 1 retryCount - 1)) maxSeconds

/-! ### `_handle_message` -/

variable {V : Type*}

namespace Message

/-- The headers the runner reads. -/
def decoded (m : Message V) : DecodedHeaders := decodeHeaders m.headers

/-- The retry count of a message. -/
def retryCount (m : Message V) : ℕ := parseRetryCount m.decoded

/-- The message is on the retry topic and another role wrote it. -/
def skipped (s : RunnerSettings) (m : Message V) : Bool :=
  m.topic == s.retryTopic &&
    (m.decoded originalTopicHeader).getD s.consumeTopic != s.consumeTopic

/-- The retry count of the message is spent. -/
def spent (s : RunnerSettings) (m : Message V) : Bool := s.retryMaxCount ≤ m.retryCount

/-- The reason a failure is published with. -/
def errorReason (error : Option String) : String :=
  pyStrip (match error with
    | none => "unknown processing error"
    | some e => if e = "" then "unknown processing error" else e)

/-- The publication to the retry topic at the clock reading `now`, in milliseconds. -/
def retryPublication (s : RunnerSettings) (m : Message V) (error : Option String) (now : ℤ) :
    Publication V :=
  let next := m.retryCount + 1
  let delay := computeRetryBackoffSeconds next s.retryBackoffSeconds s.retryBackoffMultiplier
    s.retryBackoffMaxSeconds
  { topic := s.retryTopic
    value := m.value
    headers := [(retryCountHeader, toString next),
      (originalTopicHeader, (m.decoded originalTopicHeader).getD m.topic),
      (errorReasonHeader, errorReason error),
      (retryAtHeader, toString (now + truncate (delay * 1000)))] }

/-- The publication to the dead letters. -/
def dlqPublication (s : RunnerSettings) (m : Message V) (error : Option String) :
    Publication V where
  topic := s.kafkaDlqTopic
  value := m.value
  headers := [(retryCountHeader, toString m.retryCount),
    (originalTopicHeader, (m.decoded originalTopicHeader).getD m.topic),
    (errorReasonHeader, errorReason error)]

/-- The continuation after the handler's answer: what is published, `none` when the call returns at
once. -/
def afterHandler (s : RunnerSettings) (m : Message V) (success : Bool) (error : Option String)
    (now : ℤ) : Option (Publication V) :=
  if success then none
  else if m.spent s then some (m.dlqPublication s error)
  else some (m.retryPublication s error now)

end Message

/-- The default settings of the request role, with the given bound on the retries. -/
def exampleSettings (retryMaxCount : ℤ) : RunnerSettings :=
  ⟨"request-topic", "retry-topic", "dlq-topic", retryMaxCount, 1, 2, 30⟩

end Morphflow
