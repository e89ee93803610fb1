import AgentGpu.Foundation.Goroutines
import AgentGpu.Quota.Counters

namespace AgentGpu.Quota

open Foundation

-- Key ids are minted as hex, so no real key has this one.
def globalKeyID : String := "__global__"

/-- The quota engine over its in-memory counter store. `keyLimits` holds the per-key
overrides that the callers read with the key; `admitted` records, for the statements only,
the counter key and the clock reading of every admitted request. -/
structure Engine where
  store : CounterStore := fun _ ↦ none
  defaults : Limits := {}
  global : Limits := {}
  keyLimits : String → Option Limits := fun _ ↦ none
  clock : Time
  admitted : List (String × Time) := []

namespace Engine

def effectiveLimits (s : Engine) (keyID : String) : Limits := (s.keyLimits keyID).getD s.defaults

def rpmLimit (s : Engine) (keyID : String) : UInt64 :=
  if keyID = globalKeyID then s.global.rpm else (s.effectiveLimits keyID).rpm

def reserve (s : Engine) (keyID : String) (now : Time) (check : Counters → Option Denial) :
    Engine :=
  match s.store.reserve keyID now check with
  | (store, some _) => { s with store := store }
  | (store, none) => { s with store := store, admitted := (keyID, now) :: s.admitted }

end Engine

inductive Call
  | checkAndReserve (keyID : String)
  | checkAndReserveGlobal
  | recordTokens (keyID : String) (n : UInt64)
  | recordGlobalTokens (n : UInt64)
  | usage (keyID : String)
  | checkpoint

def Call.keyID? : Call → Option String
  | .checkAndReserve keyID | .recordTokens keyID _ | .usage keyID => some keyID
  | _ => none

/-- Each method reads the clock in one step and takes the store lock in a later one. -/
inductive Instr
  | serve
  | enter (call : Call)
  | reserve (keyID : String) (lim : Limits) (now : Time)
  | reserveGlobal (lim : Limits) (now : Time)
  | addTokens (keyID : String) (now : Time) (n : UInt64)
  | get (keyID : String) (now : Time)
  | checkpoint (now : Time)

inductive Choice
  | go
  | elapse (d : ℕ)
  | call (call : Call)

def enter (s : Engine) : Call → List Instr
  | .checkAndReserve keyID => [.reserve keyID (s.effectiveLimits keyID) s.clock]
  | .checkAndReserveGlobal =>
    if s.global.rpm = 0 ∧ s.global.tpm = 0 then [] else [.reserveGlobal s.global s.clock]
  | .recordTokens keyID n => if n = 0 then [] else [.addTokens keyID s.clock n]
  | .recordGlobalTokens n =>
    if n = 0 then []
    else if s.global.rpm = 0 ∧ s.global.tpm = 0 then []
    else [.addTokens globalKeyID s.clock n]
  | .usage keyID => [.get keyID s.clock]
  | .checkpoint => [.checkpoint s.clock]

def exec (s : Engine) : Instr → Choice → Option (Effect Engine Instr)
  | .serve, .elapse d => some ⟨{ s with clock := s.clock + d }, [.serve], []⟩
  | .serve, .call call =>
    if call.keyID? = some globalKeyID then none else some ⟨s, [.serve], [[.enter call]]⟩
  | .enter call, .go => some ⟨s, enter s call, []⟩
  | .reserve keyID lim now, .go => some ⟨s.reserve keyID now (check lim), [], []⟩
  | .reserveGlobal lim now, .go => some ⟨s.reserve globalKeyID now (checkGlobal lim), [], []⟩
  | .addTokens keyID now n, .go => some ⟨{ s with store := s.store.addTokens keyID now n }, [], []⟩
  | .get keyID now, .go => some ⟨{ s with store := (s.store.get keyID now).1 }, [], []⟩
  | .checkpoint now, .go => some ⟨{ s with store := s.store.rollAll now }, [], []⟩
  | _, _ => none

def machine : Machine Engine Instr Choice := ⟨exec⟩

def start (s : Engine) : Config Engine Instr := ⟨s, [[.serve]]⟩

/-- The clock reading under which an instruction is about to lock the store and roll the
counters of `keyID`. -/
def Instr.touches (keyID : String) : Instr → Option Time
  | .reserve k _ now | .addTokens k now _ | .get k now => if k = keyID then some now else none
  | .reserveGlobal _ now => if globalKeyID = keyID then some now else none
  | .checkpoint now => some now
  | _ => none

def Instr.reserves : Instr → Bool
  | .reserve .. | .reserveGlobal .. => true
  | _ => false

end AgentGpu.Quota
