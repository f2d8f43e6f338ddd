import GossipRs.Lib.Word
import GossipRs.Lib.SortedSet

/-! Anchor derivation from a regex (`regex2anchor.rs`). A bottom-up analysis keeps the finite set of
texts a part can match or literals that every match of it contains, within caps; anchors, confirming
literals and residue gates are read off the result. -/

namespace GossipRs.Engine

open Lib

/-! ### Parsed regexes -/

inductive Look where
  | start
  | finish
  | startLF
  | endLF
  | startCRLF
  | endCRLF
  | wordAscii
  | wordAsciiNegate
  | wordUnicode
  | wordUnicodeNegate
  | wordStartAscii
  | wordEndAscii
  | wordStartUnicode
  | wordEndUnicode
  | wordStartHalfAscii
  | wordEndHalfAscii
  | wordStartHalfUnicode
  | wordEndHalfUnicode
deriving DecidableEq, Repr

inductive HirClass where
  | unicode (ranges : List (Char × Char))
  | bytes (ranges : List (UInt8 × UInt8))
deriving DecidableEq, Repr

inductive Hir where
  | empty
  | literal (bytes : Bytes)
  | cls (ranges : HirClass)
  | look (kind : Look)
  | repetition (min : Nat) (max : Option Nat) (sub : Hir)
  | capture (sub : Hir)
  | concat (subs : List Hir)
  | alternation (alts : List Hir)

structure AnchorDeriveConfig where
  minAnchorLen : Nat
  maxExactSet : Nat
  maxExactStringLen : Nat
  maxClassExpansion : Nat
deriving DecidableEq, Repr

inductive AnchorDeriveError where
  | invalidPattern (message : String)
  | unanchorable
  | onlyWeakAnchors
deriving DecidableEq, Repr

inductive Prefilter where
  | all
  | anyOf (set : List Bytes)
  | substring (s : Bytes)
deriving DecidableEq, Repr

/-- What is known of a part: the texts it can match, or a condition on them. -/
structure Info where
  exact : Option (List Bytes)
  pf : Prefilter
deriving DecidableEq, Repr

def sortDedup (set : List Bytes) : List Bytes := sortedElements set.toFinset

def Info.all : Info := ⟨none, .all⟩

def Info.ofExact (set : List Bytes) (cfg : AnchorDeriveConfig) : Option Info :=
  if cfg.maxExactSet < (sortDedup set).length then none
  else if (sortDedup set).any (fun s => decide (cfg.maxExactStringLen < s.length)) then none
  else some ⟨some (sortDedup set), .all⟩

/-- `Info::exact(..).unwrap_or_else(Info::all)`. -/
def Info.exactOrAll (set : List Bytes) (cfg : AnchorDeriveConfig) : Info :=
  (Info.ofExact set cfg).getD Info.all

/-! ### Classes -/

def charRange (lo hi : Char) : List Char :=
  ((List.range' lo.toNat (hi.toNat + 1 - lo.toNat)).filter fun n => decide n.isValidChar).map
    Char.ofNat

def byteRange (lo hi : UInt8) : List UInt8 :=
  (List.range' lo.toNat (hi.toNat + 1 - lo.toNat)).map UInt8.ofNat

def pushBounded (max : Nat) (bytes : List UInt8) (b : UInt8) : Option (List UInt8) :=
  if max < (bytes ++ [b]).length then none else some (bytes ++ [b])

def classToSmallByteSet (c : HirClass) (cfg : AnchorDeriveConfig) : Option (List UInt8) :=
  match c with
  | .unicode ranges =>
    (ranges.flatMap fun r => charRange r.1 r.2).foldlM
      (fun bytes c => if 127 < c.toNat then none
        else pushBounded cfg.maxClassExpansion bytes (UInt8.ofNat c.toNat)) []
  | .bytes ranges =>
    (ranges.flatMap fun r => byteRange r.1 r.2).foldlM (pushBounded cfg.maxClassExpansion) []

/-! ### Analysis -/

def crossProduct (a b : List Bytes) (cfg : AnchorDeriveConfig) : Option (List Bytes) :=
  if cfg.maxExactSet < a.length * b.length then none
  else
    let result := a.flatMap fun x => b.map fun y => x ++ y
    if result.any (fun s => decide (cfg.maxExactStringLen < s.length)) then none else some result

def Prefilter.ofSet : List Bytes → Prefilter
  | [s] => .substring s
  | set => .anyOf set

def repeatExact (cfg : AnchorDeriveConfig) (exact : List Bytes) :
    Nat → List Bytes → Option (List Bytes)
  | 0, acc => some acc
  | n + 1, acc =>
    match crossProduct acc exact cfg with
    | none => none
    | some product => repeatExact cfg exact n product

def analyzeRepetition (min : Nat) (max : Option Nat) (subInfo : Info) (cfg : AnchorDeriveConfig) :
    Info :=
  if min = 0 then
    if max = some 0 then Info.exactOrAll [[]] cfg
    else
      match subInfo.exact with
      | some exact => if max = some 1 then Info.exactOrAll ([] :: exact) cfg else Info.all
      | none => Info.all
  else
    match subInfo.exact with
    | some exact =>
      match repeatExact cfg exact (min - 1) exact with
      | none => Info.all
      | some result =>
        if max = some min then Info.exactOrAll result cfg else ⟨none, Prefilter.ofSet result⟩
    | none => subInfo

def ceilLog2 (n : Nat) : Nat := if n ≤ 1 then 0 else Nat.log2 (n - 1) + 1

def anchorSetScore (minLen setSize : Nat) : Int := (minLen : Int) * 8 - ceilLog2 (max setSize 1)

def minLength (set : List Bytes) : Nat := ((set.map List.length).min?).getD 0

def maxLength (set : List Bytes) : Nat := ((set.map List.length).max?).getD 0

/-- `usize::MAX - size`. -/
def sizeRank (size : Nat) : Nat := 2 ^ 64 - 1 - size

def betterWindow (acc : List Bytes) : Option (List Bytes) → Bool
  | none => true
  | some prev =>
    let score := anchorSetScore (minLength acc) acc.length
    let prevScore := anchorSetScore (minLength prev) prev.length
    decide (prevScore < score) || (decide (score = prevScore) &&
      (decide (minLength prev < minLength acc) || (decide (minLength prev = minLength acc) &&
        (decide (sizeRank prev.length < sizeRank acc.length) ||
          (decide (sizeRank prev.length = sizeRank acc.length) &&
            decide (maxLength prev < maxLength acc))))))

def growWindow (cfg : AnchorDeriveConfig) (acc : List Bytes) (best : Option (List Bytes)) :
    List Info → Option (List Bytes)
  | [] => best
  | child :: rest =>
    match child.exact with
    | none => best
    | some exact =>
      match crossProduct acc exact cfg with
      | none => best
      | some prod =>
        if cfg.maxExactSet < (sortDedup prod).length then best
        else if (sortDedup prod).any List.isEmpty then growWindow cfg (sortDedup prod) best rest
        else if minLength (sortDedup prod) < cfg.minAnchorLen then
          growWindow cfg (sortDedup prod) best rest
        else if betterWindow (sortDedup prod) best then
          growWindow cfg (sortDedup prod) (some (sortDedup prod)) rest
        else growWindow cfg (sortDedup prod) best rest

def bestWindow (cfg : AnchorDeriveConfig) (best : Option (List Bytes)) :
    List Info → Option (List Bytes)
  | [] => best
  | child :: rest =>
    match child.exact with
    | none => bestWindow cfg best rest
    | some _ => bestWindow cfg (growWindow cfg [[]] best (child :: rest)) rest

def bestExactWindowPrefilter (children : List Info) (cfg : AnchorDeriveConfig) : Option Prefilter :=
  (bestWindow cfg none children).map Prefilter.ofSet

def prefilterScore : Prefilter → Int
  | .all => 0
  | .substring s => (s.length : Int) * 8
  | .anyOf set => anchorSetScore (minLength set) set.length

/-- `max_by(compare_prefilters)`, which returns the last of several maxima. -/
def maxPrefilter : List Prefilter → Option Prefilter
  | [] => none
  | pf :: rest =>
    some (rest.foldl
      (fun best pf => if prefilterScore best ≤ prefilterScore pf then pf else best) pf)

def concatExact (cfg : AnchorDeriveConfig) : List Bytes → List Info → Option (List Bytes)
  | acc, [] => some acc
  | acc, child :: rest =>
    match child.exact with
    | none => none
    | some exact =>
      match crossProduct acc exact cfg with
      | none => none
      | some product => concatExact cfg product rest

def childPrefilter (child : Info) : Option Prefilter :=
  match child.exact with
  | some exact => if exact = [] then none else some (Prefilter.ofSet exact)
  | none => if child.pf = .all then none else some child.pf

def concatFallback (children : List Info) (cfg : AnchorDeriveConfig) : Info :=
  match bestExactWindowPrefilter children cfg with
  | some pf => ⟨none, pf⟩
  | none =>
    match maxPrefilter (children.filterMap childPrefilter) with
    | some pf => ⟨none, pf⟩
    | none => Info.all

def analyzeConcat (children : List Info) (cfg : AnchorDeriveConfig) : Info :=
  if children = [] then Info.exactOrAll [[]] cfg
  else
    match (concatExact cfg [[]] children).bind fun exact => Info.ofExact exact cfg with
    | some info => info
    | none => concatFallback children cfg

def branchAnchors : List Info → Option (List Bytes)
  | [] => some []
  | child :: rest =>
    match child.exact with
    | some exact =>
      if exact.any List.isEmpty then none else (branchAnchors rest).map fun more => exact ++ more
    | none =>
      match child.pf with
      | .all => none
      | .substring s => (branchAnchors rest).map fun more => s :: more
      | .anyOf set => (branchAnchors rest).map fun more => set ++ more

def alternationFallback (children : List Info) (cfg : AnchorDeriveConfig) : Info :=
  match branchAnchors children with
  | none => Info.all
  | some anchors =>
    if sortDedup anchors = [] then Info.all
    else if (sortDedup anchors).length = 1 ∨ (sortDedup anchors).length ≤ cfg.maxExactSet then
      ⟨none, Prefilter.ofSet (sortDedup anchors)⟩
    else Info.all

def analyzeAlternation (children : List Info) (cfg : AnchorDeriveConfig) : Info :=
  if children = [] then Info.all
  else
    match (children.mapM Info.exact).bind fun sets => Info.ofExact sets.flatten cfg with
    | some info => info
    | none => alternationFallback children cfg

def analyzeClass (c : HirClass) (cfg : AnchorDeriveConfig) : Info :=
  match classToSmallByteSet c cfg with
  | some bytes => Info.exactOrAll (bytes.map fun b => [b]) cfg
  | none => Info.all

mutual

def analyze (cfg : AnchorDeriveConfig) : Hir → Info
  | .empty => Info.exactOrAll [[]] cfg
  | .literal bytes => Info.exactOrAll [bytes] cfg
  | .cls c => analyzeClass c cfg
  | .look _ => Info.exactOrAll [[]] cfg
  | .repetition min max sub => analyzeRepetition min max (analyze cfg sub) cfg
  | .capture sub => analyze cfg sub
  | .concat subs => analyzeConcat (analyzeAll cfg subs) cfg
  | .alternation alts => analyzeAlternation (analyzeAll cfg alts) cfg

def analyzeAll (cfg : AnchorDeriveConfig) : List Hir → List Info
  | [] => []
  | h :: rest => analyze cfg h :: analyzeAll cfg rest

end

/-! ### Anchors -/

def chooseAnchors (info : Info) (cfg : AnchorDeriveConfig) :
    Except AnchorDeriveError (List Bytes) :=
  match info.exact with
  | some exact =>
    if exact.any List.isEmpty then .error .unanchorable
    else if exact.any (fun s => decide (s.length < cfg.minAnchorLen)) then .error .onlyWeakAnchors
    else .ok exact
  | none =>
    match info.pf with
    | .all => .error .unanchorable
    | .substring s => if cfg.minAnchorLen ≤ s.length then .ok [s] else .error .onlyWeakAnchors
    | .anyOf set =>
      if set.any List.isEmpty then .error .unanchorable
      else if set.any (fun s => decide (s.length < cfg.minAnchorLen)) then .error .onlyWeakAnchors
      else if set = [] then .error .unanchorable
      else .ok set

def peelCapture : Hir → Hir
  | .capture sub => peelCapture sub
  | h => h

def usable (cfg : AnchorDeriveConfig) (s : Bytes) : Bool :=
  decide (s ≠ []) && decide (cfg.minAnchorLen ≤ s.length)

def infoLiteral (cfg : AnchorDeriveConfig) (info : Info) : Option Bytes :=
  match info.exact, info.pf with
  | some [s], .substring s' =>
    if usable cfg s then some s else if usable cfg s' then some s' else none
  | some [s], _ => if usable cfg s then some s else none
  | _, .substring s' => if usable cfg s' then some s' else none
  | _, _ => none

def partLiteral (minimumLen : Hir → Option Nat) (cfg : AnchorDeriveConfig) (sub : Hir) :
    Option Bytes :=
  if minimumLen sub = some 0 then none
  else
    match sub with
    | .literal bytes => if usable cfg bytes then some bytes else none
    | h => infoLiteral cfg (analyze cfg h)

def collectConfirmAllLiterals (minimumLen : Hir → Option Nat) (hir : Hir)
    (cfg : AnchorDeriveConfig) :
    List Bytes :=
  match peelCapture hir with
  | .concat subs =>
    sortDedup (subs.filterMap fun sub => partLiteral minimumLen cfg (peelCapture sub))
  | _ => []

/-! ### Residue gates -/

inductive Boundary where
  | none
  | asciiWord
deriving DecidableEq, Repr

structure RunLengthGate where
  byteMask : UInt8 → Bool
  minLen : Nat
  maxLen : Option Nat
  boundary : Boundary

inductive ResidueGatePlan where
  | runLength (gate : RunLengthGate)
  | or (gates : List ResidueGatePlan)

def isAsciiWordBoundary : Look → Bool
  | .wordAscii | .wordStartAscii | .wordEndAscii | .wordStartHalfAscii | .wordEndHalfAscii => true
  | _ => false

def asciiMask (bytes : List Nat) : Option (UInt8 → Bool) :=
  if bytes.any (fun n => decide (127 < n)) then none
  else some fun b => decide (b.toNat ∈ bytes)

def classToAsciiMask : HirClass → Option (UInt8 → Bool)
  | .unicode ranges => asciiMask ((ranges.flatMap fun r => charRange r.1 r.2).map Char.toNat)
  | .bytes ranges => asciiMask ((ranges.flatMap fun r => byteRange r.1 r.2).map UInt8.toNat)

def literalByteToMask : Bytes → Option (UInt8 → Bool)
  | [b] => asciiMask [b.toNat]
  | _ => none

def atomMask : Hir → Option (UInt8 → Bool)
  | .cls c => classToAsciiMask c
  | .literal bytes => literalByteToMask bytes
  | _ => none

def repeatedMask : Hir → Option (UInt8 → Bool)
  | .capture sub => atomMask sub
  | h => atomMask h

def isZeroWidth : Hir → Bool
  | .look _ | .empty => true
  | _ => false

def isWordLook : Hir → Bool
  | .look kind => isAsciiWordBoundary kind
  | _ => false

def extractCoreWithBoundary : Hir → Option (Boundary × Hir)
  | .concat subs =>
    let rest := subs.dropWhile isZeroWidth
    let leading := (subs.takeWhile isZeroWidth).any isWordLook
    let trailing := (rest.reverse.takeWhile isZeroWidth).any isWordLook
    match rest.reverse.dropWhile isZeroWidth with
    | [core] => some (if leading && trailing then .asciiWord else .none, core)
    | _ => none
  | h => some (.none, h)

def deriveRunLengthGate (hir : Hir) : Option RunLengthGate := do
  let (boundary, core) ← extractCoreWithBoundary hir
  match peelCapture core with
  | .repetition min max sub =>
    if min = 0 then none
    else
      let mask ← repeatedMask sub
      return ⟨mask, min, max, boundary⟩
  | atom =>
    let mask ← atomMask atom
    return ⟨mask, 1, some 1, boundary⟩

mutual

def deriveResidueGatePlan : Hir → Option ResidueGatePlan
  | .capture sub => deriveResidueGatePlan sub
  | .alternation alts =>
    if alts.isEmpty then none else (deriveResidueGates alts).map ResidueGatePlan.or
  | .empty => (deriveRunLengthGate .empty).map ResidueGatePlan.runLength
  | .literal bytes => (deriveRunLengthGate (.literal bytes)).map ResidueGatePlan.runLength
  | .cls c => (deriveRunLengthGate (.cls c)).map ResidueGatePlan.runLength
  | .look kind => (deriveRunLengthGate (.look kind)).map ResidueGatePlan.runLength
  | .repetition min max sub =>
    (deriveRunLengthGate (.repetition min max sub)).map ResidueGatePlan.runLength
  | .concat subs => (deriveRunLengthGate (.concat subs)).map ResidueGatePlan.runLength

def deriveResidueGates : List Hir → Option (List ResidueGatePlan)
  | [] => some []
  | h :: rest =>
    match deriveResidueGatePlan h, deriveResidueGates rest with
    | some gate, some gates => some (gate :: gates)
    | _, _ => none

end

/-! ### Plans -/

inductive UnfilterableReason where
  | matchesEmptyString
  | onlyWeakAnchors
  | unsupportedRegexFeatures
  | noSoundGate
deriving DecidableEq, Repr

inductive TriggerPlan where
  | anchored (anchors confirmAll : List Bytes)
  | residue (gate : ResidueGatePlan)
  | unfilterable (reason : UnfilterableReason)

def planOf (minimumLen : Hir → Option Nat) (hir : Hir) (cfg : AnchorDeriveConfig) : TriggerPlan :=
  if minimumLen hir = some 0 then .unfilterable .matchesEmptyString
  else
    match chooseAnchors (analyze cfg hir) cfg with
    | .ok anchors =>
      .anchored anchors
        ((collectConfirmAllLiterals minimumLen hir cfg).filter fun c => decide (c ∉ anchors))
    | .error e =>
      match deriveResidueGatePlan hir with
      | some gate => .residue gate
      | none =>
        .unfilterable (if e = .onlyWeakAnchors then .onlyWeakAnchors else .noSoundGate)

/-- `compile_trigger_plan`, from the parser's result. -/
def compileTriggerPlan (minimumLen : Hir → Option Nat) (parsed : Except String Hir)
    (cfg : AnchorDeriveConfig) : Except AnchorDeriveError TriggerPlan :=
  match parsed with
  | .error message => .error (.invalidPattern message)
  | .ok hir => .ok (planOf minimumLen hir cfg)

/-- `derive_anchors_from_pattern`, from the parser's result. -/
def deriveAnchorsFromPattern (parsed : Except String Hir) (cfg : AnchorDeriveConfig) :
    Except AnchorDeriveError (List Bytes) :=
  match parsed with
  | .error message => .error (.invalidPattern message)
  | .ok hir => chooseAnchors (analyze cfg hir) cfg

end GossipRs.Engine
