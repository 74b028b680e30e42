import Morphflow.Domain.Models
import Morphflow.Foundation.ExpiringTable

/-!
# The idempotency store

`RedisIdempotencyStore` keeps one Redis entry for each key of a request. A request reserves its key
with `SET … NX EX`, naming the job it is about to create, and marks the key as completed with an
unconditional `SET … EX`; the two entries expire after different times. Redis refuses an expiry
that is not positive, before it looks at the key.

The value of an entry is the JSON text of its two fields; the model keeps the fields.

## Main definitions

* `RedisEntry`, `Redis`, `RedisIdempotencyStore`.
* `RedisIdempotencyStore.getRequestRecord`, `RedisIdempotencyStore.reserveRequest`,
  `RedisIdempotencyStore.completeRequest`.
-/

namespace Morphflow

inductive RequestStatus
  | processing
  | completed
  deriving DecidableEq

/-- The value of an entry. -/
structure RedisEntry where
  status : RequestStatus
  jobId : Option Uuid

/-- The entries of Redis. -/
abbrev Redis := ExpiringTable String RedisEntry Instant

/-- What the store tells about a key. -/
structure IdempotencyRecord where
  key : String
  jobId : Option Uuid
  status : RequestStatus

/-- The settings of the store. -/
structure RedisIdempotencyStore where
  ttlSeconds : ℤ
  processingTtlSeconds : ℤ

theorem timedelta_pos {seconds : ℤ} (h : 0 < seconds) : 0 < timedelta seconds :=
  Int.mul_pos h (by decide)

namespace RedisIdempotencyStore

/-- `RedisIdempotencyStore._request_key`. -/
def requestKey (key : String) : String := "idem:req:" ++ key

theorem requestKey_injective : Function.Injective requestKey := by
  intro a b h
  have hlist : "idem:req:".toList ++ a.toList = "idem:req:".toList ++ b.toList := by
    rw [← String.toList_append, ← String.toList_append]
    exact congrArg String.toList h
  exact String.toList_inj.mp (List.append_cancel_left hlist)

/-- `get_request_record` at the time `now`. -/
def getRequestRecord (redis : Redis) (now : Instant) (key : String) : Option IdempotencyRecord :=
  (redis.read now (requestKey key)).map fun entry => ⟨key, entry.jobId, entry.status⟩

/-- The exception that answers an expiry that is not positive. -/
def invalidExpire : String := "invalid expire time in 'set' command"

/-- `reserve_request` at the time `now`: whether the key was reserved, and the entries. -/
def reserveRequest (store : RedisIdempotencyStore) (redis : Redis) (now : Instant) (key : String)
    (jobId : Uuid) : Except String (Option (Bool × Redis)) :=
  if 0 < store.processingTtlSeconds then
    match redis.setIfAbsent now (requestKey key) ⟨.processing, some jobId⟩
      (now + timedelta store.processingTtlSeconds) with
    | some redis' => .ok (some (true, redis'))
    | none => .ok (some (false, redis))
  else .error invalidExpire

/-- `complete_request` at the time `now`. -/
def completeRequest (store : RedisIdempotencyStore) (redis : Redis) (now : Instant) (key : String)
    (jobId : Uuid) : Except String (Option (Unit × Redis)) :=
  if 0 < store.ttlSeconds then
    .ok (some ((), redis.put (requestKey key) ⟨.completed, some jobId⟩
      (now + timedelta store.ttlSeconds)))
  else .error invalidExpire

/-- The job a record names: the test `existing and existing.job_id`. -/
def recordedJob? (redis : Redis) (now : Instant) (key : String) : Option Uuid :=
  (getRequestRecord redis now key).bind (·.jobId)

/-- The entries after a reservation. -/
def reserved (store : RedisIdempotencyStore) (redis : Redis) (now : Instant) (key : String)
    (jobId : Uuid) : Redis :=
  redis.put (requestKey key) ⟨.processing, some jobId⟩ (now + timedelta store.processingTtlSeconds)

/-- The entries after the mark of completion. -/
def completed (store : RedisIdempotencyStore) (redis : Redis) (now : Instant) (key : String)
    (jobId : Uuid) : Redis :=
  redis.put (requestKey key) ⟨.completed, some jobId⟩ (now + timedelta store.ttlSeconds)

section Statements

variable {store : RedisIdempotencyStore} {redis redis' : Redis} {now : Instant} {key : String}
  {jobId : Uuid}

theorem getRequestRecord_eq_none_iff :
    getRequestRecord redis now key = none ↔ redis.read now (requestKey key) = none :=
  Option.map_eq_none_iff

theorem getRequestRecord_of_kept {now' : Instant} (hle : now ≤ now')
    (h : getRequestRecord redis now key ≠ none → getRequestRecord redis now' key ≠ none) :
    getRequestRecord redis now' key = getRequestRecord redis now key := by
  simp only [ne_eq, getRequestRecord_eq_none_iff] at h
  rw [getRequestRecord, getRequestRecord]
  cases hnow : redis.read now' (requestKey key) with
  | some v => rw [ExpiringTable.read_of_le hle hnow]
  | none => rw [not_imp_not.mp h hnow]

theorem reserveRequest_granted_iff :
    store.reserveRequest redis now key jobId = .ok (some (true, redis')) ↔
      0 < store.processingTtlSeconds ∧ getRequestRecord redis now key = none ∧
        redis' = store.reserved redis now key jobId := by
  rw [getRequestRecord_eq_none_iff]
  unfold reserveRequest
  split_ifs with hpos
  · split
    · next redis₁ hset =>
      obtain ⟨hnone, rfl⟩ := ExpiringTable.setIfAbsent_eq_some_iff.mp hset
      simp only [Except.ok.injEq, Option.some.injEq, Prod.mk.injEq, true_and, hpos, hnone]
      exact ⟨Eq.symm, Eq.symm⟩
    · next hset =>
      have hsome := ExpiringTable.setIfAbsent_eq_none_iff.mp hset
      simp [Option.isSome_iff_ne_none.mp hsome]
  · simp [hpos]

theorem reserveRequest_refused_iff :
    store.reserveRequest redis now key jobId = .ok (some (false, redis')) ↔
      0 < store.processingTtlSeconds ∧ getRequestRecord redis now key ≠ none ∧
        redis' = redis := by
  rw [Ne, getRequestRecord_eq_none_iff]
  unfold reserveRequest
  split_ifs with hpos
  · split
    · next redis₁ hset =>
      obtain ⟨hnone, -⟩ := ExpiringTable.setIfAbsent_eq_some_iff.mp hset
      simp [hnone]
    · next hset =>
      have hsome := Option.isSome_iff_ne_none.mp (ExpiringTable.setIfAbsent_eq_none_iff.mp hset)
      simp only [Except.ok.injEq, Option.some.injEq, Prod.mk.injEq, true_and, hpos, hsome,
        not_false_eq_true]
      exact ⟨Eq.symm, Eq.symm⟩
  · simp [hpos]

/-- A record names the job of its key until it expires. -/
theorem getRequestRecord_reserved (hpos : 0 < store.processingTtlSeconds) :
    getRequestRecord (store.reserved redis now key jobId) now key =
      some ⟨key, some jobId, .processing⟩ := by
  have hle : now ≤ now + timedelta store.processingTtlSeconds :=
    le_add_of_nonneg_right (timedelta_pos hpos).le
  rw [getRequestRecord, reserved, ExpiringTable.read_put_self hle]
  rfl

theorem getRequestRecord_completed (hpos : 0 < store.ttlSeconds) :
    getRequestRecord (store.completed redis now key jobId) now key =
      some ⟨key, some jobId, .completed⟩ := by
  have hle : now ≤ now + timedelta store.ttlSeconds :=
    le_add_of_nonneg_right (timedelta_pos hpos).le
  rw [getRequestRecord, completed, ExpiringTable.read_put_self hle]
  rfl

theorem recordedJob?_reserved (hpos : 0 < store.processingTtlSeconds) :
    recordedJob? (store.reserved redis now key jobId) now key = some jobId := by
  rw [recordedJob?, getRequestRecord_reserved hpos]
  rfl

theorem recordedJob?_completed (hpos : 0 < store.ttlSeconds) :
    recordedJob? (store.completed redis now key jobId) now key = some jobId := by
  rw [recordedJob?, getRequestRecord_completed hpos]
  rfl

theorem getRequestRecord_put_of_ne {other : String} (h : other ≠ key) {entry : RedisEntry}
    {expiresAt : Instant} :
    getRequestRecord (redis.put (requestKey key) entry expiresAt) now other =
      getRequestRecord redis now other := by
  rw [getRequestRecord, ExpiringTable.read_put_of_ne (requestKey_injective.ne h),
    getRequestRecord]

end Statements

end RedisIdempotencyStore

end Morphflow
