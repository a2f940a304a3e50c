import Ipam.Allocation.Allocate

namespace Ipam.Allocation

/-- The incremental search of `scan.go`. `parents` holds the parents from the one being scanned on. -/
structure Scan where
  parents : List IPNet
  prefixLen : ℤ
  bits : Family
  pEnd : ℕ
  cursor : ℕ
  last : Option ℕ
  firstFree : Option (ℕ × Family)
  floor : Option ℕ
  result : Option IPNet
  done : Bool
  deriving DecidableEq, Repr

namespace Scan

def enter (s : Scan) : List IPNet → Scan
  | [] => { s with parents := [], done := true }
  | p :: rest =>
    let start := (cidrBounds p).1
    let stop := (cidrBounds p).2
    match s.floor with
    | none => { s with parents := p :: rest, bits := p.bits, pEnd := stop, cursor := start, last := none }
    | some floor =>
      if stop < floor then enter s rest
      else
        { s with
          parents := p :: rest, bits := p.bits, pEnd := stop, cursor := max start floor, last := none }

def advanceParent (s : Scan) : Scan :=
  s.enter s.parents.tail

def newScan (parents : List IPNet) (prefixLen : ℤ) (floor : Option IP) : Except Error Scan :=
  if parents = [] then .error .noParent
  else
    .ok (enter ⟨[], prefixLen, .v4, 0, 0, none, none, floor.map ipToInt, none, false⟩ parents)

def need (s : Scan) : Option (IPNet × IP) :=
  if s.done then none
  else s.parents.head?.map fun parent => (parent, intToIP s.cursor s.bits)

def noteFirstFree (s : Scan) (addr : ℕ) : Scan :=
  match s.firstFree with
  | some _ => s
  | none => { s with firstFree := some (addr, s.bits) }

def tryFit (s : Scan) (lo hi : ℕ) : Option Scan :=
  match s.parents with
  | [] => none
  | parent :: _ =>
    if h : s.prefixLen < parent.ones ∨ s.bits.bits < s.prefixLen then none
    else
      (fitIn s.bits s.prefixLen.toNat (by omega) lo hi).map fun block =>
        { s with result := some block, done := true }

def feedOne (s : Scan) (block : IPNet) : Except Error Scan :=
  if block.bits ≠ s.bits then .ok s
  else
    let start := (cidrBounds block).1
    let stop := (cidrBounds block).2
    if s.last.any fun last => start < last then .error .scanOutOfOrder
    else
      let s := { s with last := some start }
      if s.pEnd < start then .ok s
      else if stop < s.cursor then .ok s
      else if s.cursor < start then
        let s := s.noteFirstFree s.cursor
        match s.tryFit s.cursor (start - 1) with
        | some s => .ok s
        | none => .ok { s with cursor := max s.cursor (stop + 1) }
      else .ok { s with cursor := max s.cursor (stop + 1) }

def feedAll (s : Scan) : List IPNet → Except Error Scan
  | [] => .ok s
  | block :: rest => if s.done then .ok s else (s.feedOne block).bind fun s => s.feedAll rest

def feed (s : Scan) (blocks : List IPNet) : Except Error Scan :=
  if s.done then .error .scanClosed else s.feedAll blocks

def atEnd (s : Scan) : Scan :=
  if s.done then s
  else
    match s.parents with
    | [] => s
    | parent :: _ =>
      let parentEnd := (cidrBounds parent).2
      if s.cursor ≤ parentEnd then
        let s := s.noteFirstFree s.cursor
        match s.tryFit s.cursor parentEnd with
        | some s => s
        | none => s.advanceParent
      else s.advanceParent

def getResult (s : Scan) : Except Error IPNet :=
  if s.done then
    match s.result with
    | some block => .ok block
    | none => .error .poolExhausted
  else .error .scanNotFinished

def getFirstFree (s : Scan) : Option IP :=
  s.firstFree.map fun f => intToIP f.1 f.2

end Scan

end Ipam.Allocation
