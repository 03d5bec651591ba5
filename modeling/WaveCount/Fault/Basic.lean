import WaveCount.Numeral.Layout
import WaveCount.Record.Price
import WaveCount.Scenario.Pattern

/-!
# Faults

What makes swings and scenarios unfit to be counted with, and what makes a setting unfit for use.
Some settings are also arguments of a component of their own; the two are told apart in the message.
-/

namespace WaveCount

inductive InputFault (N R : Type) where
  | backward (start finish : Nat)
  | noPrice (start finish : N)
  | emptyId
  | legCount (pattern : Pattern) (id : String) (count : Nat)
  | notAlternating (id : String)
  | noPhase (id : String)
  | confidence (id : String) (overall : R)
  | duplicateId (id : String)
  deriving DecidableEq, Repr

namespace InputFault

def text {N : Type} [PriceFormat N] : InputFault N Float → String
  | backward a b => "swing must move forward in time (" ++ toString a ++ " -> " ++ toString b ++ ")"
  | noPrice a b => "swing prices must be valid numbers (" ++ PriceFormat.toText a ++ " -> " ++
      PriceFormat.toText b ++ ")"
  | emptyId => "scenario id cannot be empty"
  | legCount pattern id count => pattern.name ++ " scenario '" ++ id ++ "' needs " ++
      toString pattern.legs ++ " swings, got " ++ toString count
  | notAlternating id => "scenario '" ++ id ++ "' swings do not alternate"
  | noPhase id => "scenario '" ++ id ++ "' must have a phase"
  | confidence id c => "scenario '" ++ id ++ "' confidence " ++ Numeral.Layout.message.render c ++
      " outside [0, 1]"
  | duplicateId id => "duplicate scenario id '" ++ id ++ "'"

def message {N : Type} [PriceFormat N] (f : InputFault N Float) : String :=
  "Invalid input: " ++ f.text

end InputFault

inductive SettingsFault (R : Type) where
  | reversal (value : R)
  | averagePeriod
  | multiplier (value : R)
  | negativeThreshold
  | thresholdOrder (least greatest : R)
  | amplitude (value : R)
  | weights (values : List R)
  | weightTotal (total : R)
  | leastConfidence (value : R)
  | scenarioCount
  | continuationLegs (value : Nat)
  | noPattern
  | consensusWeight (value : R)
  | sharpening (value : R)
  | blend (value : R)
  | ratioTolerance (value : R)
  | ratioToleranceSetting (value : R)
  | channelTolerance (value : R)
  | channelToleranceSetting (value : R)
  | swingWindow (value : Nat)
  | neutralThreshold (value : R)
  | neutralThresholdSetting (value : R)
  | stepFactor (value : R)
  | greatestAmplitude (value : R)
  | leastAmplitude (greatest value : R)
  | centralAmplitude (value greatest : R)
  | centralSpacing (value greatest : Nat)
  | malformed
  deriving DecidableEq, Repr

namespace SettingsFault

def number (x : Float) : String := Numeral.Layout.message.render x

def list (xs : List Float) : String :=
  "[" ++ ", ".intercalate (xs.map Numeral.Layout.weights.render) ++ "]"

def text : SettingsFault Float → String
  | reversal v => "reversal_pct must be positive, got " ++ number v
  | averagePeriod => "atr_period must be at least 1"
  | multiplier v => "multiplier must be positive, got " ++ number v
  | negativeThreshold => "thresholds cannot be negative"
  | thresholdOrder a b => "min_threshold " ++ number a ++ " exceeds max_threshold " ++ number b
  | amplitude v => "min_amplitude_pct must be a non-negative number, got " ++ number v
  | weights vs => "score weights must be non-negative numbers: " ++ list vs
  | weightTotal t => "score weights must sum to 1, got " ++ Numeral.fixed 6 t
  | leastConfidence v => "min_confidence must lie in [0, 1], got " ++ number v
  | scenarioCount => "max_scenarios must be at least 1"
  | continuationLegs n => "max_continuation_legs must be at most 2, got " ++ toString n
  | noPattern => "at least one pattern must be enabled"
  | consensusWeight v => "consensus weight must lie in [0, 1), got " ++ number v
  | sharpening v => "sharpening exponent must be at least 1, got " ++ number v
  | blend v => "max blend must lie in [0, 0.5], got " ++ number v
  | ratioTolerance v => "fibonacci tolerance must be a non-negative number, got " ++ number v
  | ratioToleranceSetting v => "fibonacci_tolerance must be non-negative, got " ++ number v
  | channelTolerance v => "channel tolerance must be non-negative, got " ++ number v
  | channelToleranceSetting v => "channel_tolerance must be non-negative, got " ++ number v
  | swingWindow n => "scenario_swing_window must be at least 5, got " ++ toString n
  | neutralThreshold v => "neutral threshold must lie in [0, 1), got " ++ number v
  | neutralThresholdSetting v => "trend_neutral_threshold must lie in [0, 1), got " ++ number v
  | stepFactor v => "compressor_step_factor must be at least 1, got " ++ number v
  | greatestAmplitude v => "max_amplitude_pct must lie in (0, 1], got " ++ number v
  | leastAmplitude m v => "min_amplitude_pct must lie in [0, " ++ number m ++ "], got " ++ number v
  | centralAmplitude v m => "compressor amplitude " ++ number v ++ " exceeds max_amplitude_pct " ++
      number m
  | centralSpacing n m => "compressor min_bars " ++ toString n ++
      " must not exceed max_min_bars " ++ toString m ++ " (at least 1)"
  | malformed => "malformed wave config"

def message (f : SettingsFault Float) : String := "Invalid configuration: " ++ f.text

end SettingsFault

def check {F : Type} (ok : Bool) (fault : F) : Option F := if ok then none else some fault

@[simp]
theorem check_eq_none_iff {F : Type} {ok : Bool} {fault : F} :
    check ok fault = none ↔ ok = true := by
  cases ok <;> simp [check]

end WaveCount
