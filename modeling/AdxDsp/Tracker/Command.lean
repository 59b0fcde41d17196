import AdxDsp.Lib.Redis
import AdxDsp.Tracker.UrlInfo

/-!
# The environment of the tracker

What the functions of the tracker share: error codes, the redis connections and the wrappers
`adx_redis_command` / `adx_redis_cluster_command`, the clock and calendar functions of
`adx_time.c`, the number functions of the C library, and the dump of the control records that
`adx_dump.cpp` keeps in memory.
-/

namespace AdxDsp

open CText Redis

/-! ## Error codes and commands -/

/-- The error codes the modelled functions return. -/
inductive ErrCode where
  | success
  | unknown
  | redisConnectInvalid
  | redisCommand
  | redisKeyNotExist
  | redisGroupFcInvalid
  | dlDecodeFailed
  | trackEmptyMtype
  | trackUndefineMtype
  | trackEmptyAdx
  | trackUndefineAdx
  | trackEmptyMapid
  | trackUndefineMapid
  | trackEmptyBid
  | trackEmptyImpid
  | trackRepeatedWinnotice
  | trackRepeatedClknotice
  | trackFailedDecodePrice
  /-- An error of the price library of an exchange. -/
  | priceLib (code : ℤ)
  deriving DecidableEq

/-- The redis servers of the tracker: ad settings, delivery control, counters. -/
inductive Server where
  | adSettingSlave
  | adControllerMaster
  | adCounterMaster
  deriving DecidableEq

/-- A function of the tracker, with the commands it sends. -/
abbrev TrackerProg (α : Type) := Prog (Server × Cmd) Reply α

/-- The redis servers of the tracker and the outcomes of the commands to come. -/
abbrev TrackerWorld := World Server

/-- Run a function of the tracker. -/
def TrackerProg.exec {α : Type} (p : TrackerProg α) (w : TrackerWorld) : α × TrackerWorld :=
  p.eval World.exec w

/-- A result sends nothing. -/
theorem TrackerProg.exec_pure {α : Type} (a : α) (w : TrackerWorld) :
    (pure a : TrackerProg α).exec w = (a, w) := rfl

/-- A sequence of programs is executed one after the other. -/
theorem TrackerProg.exec_bind {α β : Type} (p : TrackerProg α) (f : α → TrackerProg β)
    (w : TrackerWorld) : TrackerProg.exec (p >>= f) w = (f (p.exec w).1).exec (p.exec w).2 :=
  Prog.eval_bind World.exec p f w

/-- `adx_redis_reply_check`. -/
def adxRedisReplyCheck : Reply → ErrCode
  | .string _ => .success
  | .array _ => .success
  | .integer _ => .success
  | .ok => .success
  | .nil => .redisKeyNotExist
  | .error => .redisCommand
  | .null => .redisCommand
  | .down => .redisConnectInvalid

/-- `adx_redis_reply_value`. -/
def adxRedisReplyValue : Reply → Except ErrCode Bytes
  | .nil => .error .redisKeyNotExist
  | .ok => .ok (bytes "OK")
  | .string text => .ok (cstr text)
  | .integer n => .ok (decimal n)
  | .array _ => .error .redisCommand
  | .error => .error .redisCommand
  | .null => .error .redisCommand
  | .down => .error .redisConnectInvalid

/-- `adx_redis_command` and `adx_redis_cluster_command` without a result. -/
def adxRedisCommand (server : Server) (c : Cmd) : TrackerProg ErrCode := do
  let reply ← Prog.call (server, c)
  return adxRedisReplyCheck reply

/-- The wrappers with a string result. -/
def adxRedisCommandString (server : Server) (c : Cmd) : TrackerProg (Except ErrCode Bytes) := do
  let reply ← Prog.call (server, c)
  return adxRedisReplyValue reply

/-- The number a reply gives, and the old value of the variable if it gives none.  `atol` reads back
an integer, which is a `long long`. -/
def replyNumber (old : ℤ) (reply : Reply) : ErrCode × ℤ :=
  match reply with
  | .integer n => (.success, n)
  | reply =>
    match adxRedisReplyValue reply with
    | .ok text => (.success, atol text)
    | .error e => (e, old)

/-- The wrappers with a number result; `old` is the value of the variable before the call. -/
def adxRedisCommandNumber (old : ℤ) (server : Server) (c : Cmd) : TrackerProg (ErrCode × ℤ) := do
  let reply ← Prog.call (server, c)
  return replyNumber old reply

@[simp] theorem replyNumber_integer (old n : ℤ) :
    replyNumber old (.integer n) = (.success, n) := rfl

/-! ## The C library -/

/-- `struct tm`, with the fields the calendar functions use. -/
structure Tm where
  year : ℤ
  mon : ℕ
  mday : ℕ
  hour : ℕ
  min : ℕ
  sec : ℕ
  wday : ℕ

/-- The functions of the C library whose results depend on the machine: the local calendar and
the conversion of floating point numbers, which are exact rationals here. -/
structure CLib where
  localtime : ℤ → Tm
  mktime : Tm → ℤ
  atof : Bytes → ℚ
  /-- `%f`. -/
  formatF : ℚ → Bytes

/-- `%02d` of a number that is not negative. -/
def twoDigits (n : ℕ) : Bytes := if n < 10 then 48 :: decimalNat n else decimalNat n

section Time

variable (lib : CLib) (t : ℤ)

/-- `get_time_str(6, split, buf)`: month and day. -/
def getTimeStrMonthDay (split : Bytes) : Bytes :=
  twoDigits ((lib.localtime t).mon + 1) ++ split ++ twoDigits (lib.localtime t).mday

/-- The macro `TIME_MONTH_DAY()`. -/
def timeMonthDay : Bytes := getTimeStrMonthDay lib t []

/-- `get_time_hour`. -/
def getTimeHour : ℕ := (lib.localtime t).hour

/-- The macro `TIME_HOUR_10M()`, that is `get_time_hour_split(10)`. -/
def timeHour10m : ℕ := (lib.localtime t).min / 10

/-- `get_time_sec_today_end`. -/
def getTimeSecTodayEnd : ℤ :=
  (23 - (lib.localtime t).hour) * 3600 + (60 - (lib.localtime t).min) * 60

/-- `get_time_sec_hour_end`. -/
def getTimeSecHourEnd : ℤ := (60 - (lib.localtime t).min) * 60 - (lib.localtime t).sec

/-- `get_time_sec_10min_end`. -/
def getTimeSec10minEnd : ℤ :=
  600 - ((((lib.localtime t).min % 10 : ℕ) : ℤ) * 60 + (lib.localtime t).sec)

/-- `get_time_hour_end`. -/
def getTimeHourEnd : ℤ := lib.mktime { lib.localtime t with min := 59, sec := 59 }

/-- `get_time_day_end`. -/
def getTimeDayEnd : ℤ := lib.mktime { lib.localtime t with hour := 23, min := 59, sec := 59 }

/-- `get_time_week_end`. -/
def getTimeWeekEnd : ℤ :=
  if (lib.localtime t).wday = 0 then getTimeDayEnd lib t
  else getTimeDayEnd lib (t + (7 - (lib.localtime t).wday) * 86400)

/-- `get_time_month_end`. -/
def getTimeMonthEnd : ℤ :=
  if (lib.localtime t).mon = 11 then
    lib.mktime { lib.localtime t with mday := 31, hour := 23, min := 59, sec := 59 }
  else
    lib.mktime { lib.localtime t with
      mon := (lib.localtime t).mon + 1, mday := 1, hour := 23, min := 59, sec := 59 } - 86400

/-- `get_enddatetime`: the end of the frequency period. -/
def getEnddatetime (frequencyperiod frequencyendtime : ℤ) : ℤ :=
  if frequencyperiod = 1 then getTimeHourEnd lib t
  else if frequencyperiod = 2 then getTimeDayEnd lib t
  else if frequencyperiod = 3 then getTimeWeekEnd lib t
  else if frequencyperiod = 4 then getTimeMonthEnd lib t
  else frequencyendtime

end Time

/-! ## The dump -/

/-- A control record: the named limits of a campaign or a policy. -/
abbrev Control := List (Bytes × ℤ)

/-- `adx_cache_to_number(adx_cache_find(control, key))`: an absent field counts as zero. -/
def Control.number (c : Control) (key : Bytes) : ℤ := (c.lookup key).getD 0

/-- What the dump knows about a mapid; the ids have been read as `int`. -/
structure MapEntry where
  campaignid : ℤ
  policyid : ℤ
  creativeid : ℤ

/-- The records that the dump has loaded. -/
structure Dump where
  campaign : List (ℤ × Control)
  policy : List (ℤ × Control)
  map : List (ℤ × MapEntry)

namespace Dump

variable (dump : Dump) (mapid : ℤ)

/-- `adx_dump_get_campaignid`. -/
def campaignid : ℤ := ((dump.map.lookup mapid).map (·.campaignid)).getD 0

/-- `adx_dump_get_policyid`. -/
def policyid : ℤ := ((dump.map.lookup mapid).map (·.policyid)).getD 0

/-- `adx_dump_get_creativeid`. -/
def creativeid : ℤ := ((dump.map.lookup mapid).map (·.creativeid)).getD 0

/-- `adx_dump_get_campaign_control`. -/
def campaignControl? : Option Control := dump.campaign.lookup (dump.campaignid mapid)

/-- `adx_dump_get_policy_control`. -/
def policyControl? : Option Control := dump.policy.lookup (dump.policyid mapid)

end Dump

end AdxDsp
