import GossipRs.Lib.AhoCorasick
import GossipRs.Lib.Base64
import GossipRs.Lib.SortedSet

/-! The base64 pre-gate of `b64_yara_gate.rs`: patterns for each anchor at each shift, an automaton
over the 64 symbols, and a scan that skips whitespace and restarts at every break. States are
unbounded numbers, in the source 32 bits. -/

namespace GossipRs.Engine

open Lib Lib.Base64

inductive PaddingPolicy where
  | stopAndHalt
  | resetAndContinue
deriving DecidableEq, Repr

inductive WhitespacePolicy where
  | rfc4648
  | asciiWhitespace
deriving DecidableEq, Repr

structure Base64YaraGateConfig where
  minPatternLen : Nat
  paddingPolicy : PaddingPolicy
  whitespacePolicy : WhitespacePolicy
deriving DecidableEq, Repr

def base64Std (v : Fin 64) : UInt8 :=
  if v.val < 26 then UInt8.ofNat (65 + v.val)
  else if v.val < 52 then UInt8.ofNat (97 + (v.val - 26))
  else if v.val < 62 then UInt8.ofNat (48 + (v.val - 52))
  else if v.val = 62 then 43
  else 47

example : (List.finRange 64).map base64Std =
    "ABCDEFGHIJKLMNOPQRSTUVWXYZabcdefghijklmnopqrstuvwxyz0123456789+/".toList.map
      fun c => UInt8.ofNat c.toNat := by decide

def padByte : UInt8 := 61

def groupChar (n shift : Nat) : UInt8 := base64Std (Base64.sextet (n >>> shift &&& 63))

def base64EncodeStd : Bytes → Bytes
  | [] => []
  | [b0] =>
    let n := b0.toNat <<< 16
    [groupChar n 18, groupChar n 12, padByte, padByte]
  | [b0, b1] =>
    let n := b0.toNat <<< 16 ||| b1.toNat <<< 8
    [groupChar n 18, groupChar n 12, groupChar n 6, padByte]
  | b0 :: b1 :: b2 :: rest =>
    let n := b0.toNat <<< 16 ||| b1.toNat <<< 8 ||| b2.toNat
    groupChar n 18 :: groupChar n 12 :: groupChar n 6 :: groupChar n 0 :: base64EncodeStd rest

def leftStrip (offset : Nat) : Nat := if offset = 0 then 0 else if offset = 1 then 2 else 3

def rightStrip (rem : Nat) : Nat := if rem = 0 then 0 else if rem = 1 then 3 else 2

def yaraBase64Perm (anchor : Bytes) (offset minPatLen : Nat) : Option Bytes :=
  if anchor = [] then none
  else
    let prefixed := List.replicate offset 0 ++ anchor
    let enc := base64EncodeStd prefixed
    let left := leftStrip offset
    let right := rightStrip (prefixed.length % 3)
    if enc.length ≤ left + right then none
    else
      let pat := (enc.drop left).take (enc.length - right - left)
      if pat.length < minPatLen then none else some pat

def anchorPatterns (cfg : Base64YaraGateConfig) (anchor : Bytes) : List Bytes :=
  if anchor = [] then []
  else [0, 1, 2].filterMap fun offset => yaraBase64Perm anchor offset cfg.minPatternLen

def patternSet (anchors : List Bytes) (cfg : Base64YaraGateConfig) : List Bytes :=
  sortedElements (anchors.flatMap (anchorPatterns cfg)).toFinset

/-- Symbols of both alphabets; every other byte is `TAG_INVALID`. -/
def base64Sym (b : UInt8) : Option (Fin 64) :=
  if 65 ≤ b ∧ b ≤ 90 then some (Base64.sextet (b.toNat - 65))
  else if 97 ≤ b ∧ b ≤ 122 then some (Base64.sextet (b.toNat - 97 + 26))
  else if 48 ≤ b ∧ b ≤ 57 then some (Base64.sextet (b.toNat - 48 + 52))
  else if b = 43 ∨ b = 45 then some (Base64.sextet 62)
  else if b = 47 ∨ b = 95 then some (Base64.sextet 63)
  else none

def isWs : WhitespacePolicy → UInt8 → Bool
  | .rfc4648, b => b == 32 || b == 10 || b == 13 || b == 9
  | .asciiWhitespace, b => b == 32 || b == 10 || b == 13 || b == 9 || b == 11 || b == 12

inductive InputClass where
  | sym (v : Fin 64)
  | ws
  | pad
  | invalid
deriving DecidableEq, Repr

def inputLut (policy : WhitespacePolicy) (b : UInt8) : InputClass :=
  if b = padByte then .pad
  else if isWs policy b then .ws
  else match base64Sym b with
    | some v => .sym v
    | none => .invalid

structure Ac64 where
  next : Nat → Fin 64 → Nat
  out : Nat → Bool
  stateCount : Nat

/-- `Ac64::build_from_base64_patterns`; nothing where a pattern leaves the alphabet, on which the
source aborts. It also aborts where a state number exceeds 32 bits, that is, on a trie of more than
`2 ^ 32` nodes of 64 transitions each; state numbers are not bounded here. -/
def Ac64.buildFromBase64Patterns (patterns : List Bytes) : Option Ac64 :=
  (patterns.mapM fun pat : Bytes => pat.mapM base64Sym).map fun words =>
    let nodes := AcNodes.build (List.finRange 64) words
    ⟨nodes.step, fun s => (nodes.node s).out, nodes.count⟩

structure Base64YaraGate where
  ac : Ac64
  patternCount : Nat
  paddingPolicy : PaddingPolicy
  whitespacePolicy : WhitespacePolicy

def Base64YaraGate.build (anchors : List Bytes) (cfg : Base64YaraGateConfig) :
    Option Base64YaraGate :=
  (Ac64.buildFromBase64Patterns (patternSet anchors cfg)).map fun ac =>
    ⟨ac, (patternSet anchors cfg).length, cfg.paddingPolicy, cfg.whitespacePolicy⟩

structure GateState where
  state : Nat
  halted : Bool
deriving DecidableEq, Repr

def GateState.default : GateState := ⟨0, false⟩

def Base64YaraGate.scanLoop (gate : Base64YaraGate) (halted : Bool) :
    Nat → Bytes → Bool × GateState
  | state, [] => (false, ⟨state, halted⟩)
  | state, b :: rest =>
    match inputLut gate.whitespacePolicy b with
    | .sym v =>
      if gate.ac.out (gate.ac.next state v) then (true, ⟨gate.ac.next state v, halted⟩)
      else gate.scanLoop halted (gate.ac.next state v) rest
    | .ws => gate.scanLoop halted state rest
    | .pad =>
      match gate.paddingPolicy with
      | .stopAndHalt => (false, ⟨state, true⟩)
      | .resetAndContinue => gate.scanLoop halted 0 rest
    | .invalid => gate.scanLoop halted 0 rest

def Base64YaraGate.scanWithState (gate : Base64YaraGate) (encoded : Bytes) (st : GateState) :
    Bool × GateState :=
  if gate.paddingPolicy = .stopAndHalt ∧ st.halted = true then (false, st)
  else
    gate.scanLoop (if gate.paddingPolicy = .resetAndContinue then false else st.halted)
      (if gate.ac.stateCount ≤ st.state then 0 else st.state) encoded

def Base64YaraGate.hits (gate : Base64YaraGate) (encoded : Bytes) : Bool :=
  (gate.scanWithState encoded GateState.default).1

def Base64YaraGate.scanChunks (gate : Base64YaraGate) : GateState → List Bytes → Bool
  | _, [] => false
  | st, chunk :: rest =>
    if (gate.scanWithState chunk st).1 then true
    else gate.scanChunks (gate.scanWithState chunk st).2 rest

def canonicalByte (b : UInt8) : UInt8 := if b = 45 then 43 else if b = 95 then 47 else b

/-- The maximal runs of base64 symbols, whitespace removed and in the standard alphabet. -/
def canonicalRuns (cfg : Base64YaraGateConfig) (encoded : Bytes) : List Bytes :=
  let scanned := match cfg.paddingPolicy with
    | .stopAndHalt => encoded.takeWhile (· != padByte)
    | .resetAndContinue => encoded
  let visible := scanned.filter fun b => !isWs cfg.whitespacePolicy b
  (visible.splitOnP fun b => (base64Sym b).isNone).map fun run => run.map canonicalByte

def base64Url (v : Fin 64) : UInt8 :=
  if v.val = 62 then 45 else if v.val = 63 then 95 else base64Std v

/-- A base64 text of some data: either alphabet, padded or not, ignored whitespace anywhere. -/
def IsEncoding (policy : WhitespacePolicy) (data text : Bytes) : Prop :=
  ∃ alphabet ∈ [base64Std, base64Url], ∃ padding ∈ [0, paddingLength data],
    text.filter (fun b => !isWs policy b) =
      (sextets data).map alphabet ++ List.replicate padding padByte

end GossipRs.Engine
