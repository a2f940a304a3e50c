import Mathlib.Data.List.Sort
import Ipam.Allocation.Cidr

namespace Ipam.Allocation

inductive Error where
  | poolExhausted
  | noParent
  | invalidReservation
  | reservationTooLarge
  | scanClosed
  | scanOutOfOrder
  | scanNotFinished
  deriving DecidableEq, Repr

inductive Strategy where
  | unset
  | firstFit
  | bestFit
  | leastUtilized
  | other (name : String)
  deriving DecidableEq, Repr

def strategyOrDefault : Strategy → Strategy
  | .unset => .firstFit
  | s => s

structure IPRange where
  start : ℕ
  stop : ℕ
  deriving DecidableEq, Repr

def rangeSize (r : IPRange) : ℕ :=
  r.stop + 1 - r.start

def rangeOf (n : IPNet) : IPRange :=
  ⟨(cidrBounds n).1, (cidrBounds n).2⟩

def filterWithin (parent : IPNet) (cs : List IPNet) : List IPNet :=
  cs.filter fun c => sameFamily parent.ip c.ip && parent.contains c.ip

def sweep (parentStart parentEnd : ℕ) : ℕ → List IPRange → List IPRange
  | cursor, [] => if cursor ≤ parentEnd then [⟨cursor, parentEnd⟩] else []
  | cursor, e :: rest =>
    if e.stop < parentStart ∨ parentEnd < e.start then sweep parentStart parentEnd cursor rest
    else if cursor < e.start then
      ⟨cursor, e.start - 1⟩ :: sweep parentStart parentEnd (max cursor (e.stop + 1)) rest
    else sweep parentStart parentEnd (max cursor (e.stop + 1)) rest

def sortByStart (rs : List IPRange) : List IPRange :=
  rs.insertionSort fun a b => a.start ≤ b.start

def freeRegions (parent : IPNet) (within : List IPNet) : List IPRange :=
  sweep (cidrFirstAddr parent) (cidrLastAddr parent) (cidrFirstAddr parent)
    (sortByStart (within.map rangeOf))

structure ParentView where
  parent : IPNet
  regions : List IPRange
  free : ℕ
  deriving DecidableEq, Repr

def viewParent (parent : IPNet) (blocked : List IPNet) : List IPRange :=
  freeRegions parent (filterWithin parent blocked)

def viewPool (parents blocked : List IPNet) : List ParentView :=
  parents.map fun parent =>
    ⟨parent, viewParent parent blocked, ((viewParent parent blocked).map rangeSize).sum⟩

def fitIn (bits : Family) (prefixLen : ℕ) (h : prefixLen ≤ bits.bits) (lo hi : ℕ) : Option IPNet :=
  if alignUp lo prefixLen bits.bits + blockSize prefixLen bits.bits - 1 ≤ hi then
    some (makeCIDR (alignUp lo prefixLen bits.bits) prefixLen bits h)
  else none

structure Fit where
  cidr : IPNet
  region : IPRange
  regionIdx : ℕ
  deriving DecidableEq, Repr

def fitsOf (parent : IPNet) (regions : List IPRange) (prefixLen : ℤ) : List Fit :=
  if h : prefixLen < parent.ones ∨ parent.bits.bits < prefixLen then []
  else regions.zipIdx.filterMap fun r =>
    (fitIn parent.bits prefixLen.toNat (by omega) r.1.start r.1.stop).map fun cidr => ⟨cidr, r.1, r.2⟩

def firstFitIn (parent : IPNet) (regions : List IPRange) (prefixLen : ℤ) : Option Fit :=
  (fitsOf parent regions prefixLen).head?

structure Candidate where
  cidr : IPNet
  regionSize : ℕ
  parentIdx : ℕ
  regionIdx : ℕ
  parentFree : ℕ
  deriving DecidableEq, Repr

def candidatesOf (prefixLen : ℤ) (v : ParentView × ℕ) : List Candidate :=
  (fitsOf v.1.parent v.1.regions prefixLen).map fun f =>
    ⟨f.cidr, rangeSize f.region, v.2, f.regionIdx, v.1.free⟩

def pickBest (better : Candidate → Candidate → Bool) : List Candidate → Option Candidate
  | [] => none
  | c :: rest => some (rest.foldl (fun best x => if better x best then x else best) c)

def selectBlock (views : List ParentView) (prefixLen : ℤ) (s : Strategy) : Option Candidate :=
  let candidates := views.zipIdx.flatMap (candidatesOf prefixLen)
  match s with
  | .bestFit => pickBest (fun x best => x.regionSize < best.regionSize) candidates
  | .leastUtilized => pickBest (fun x best => best.parentFree < x.parentFree) candidates
  | _ => candidates.head?

def findFirstAvailableBlock (parents existing : List IPNet) (prefixLen : ℤ) (s : Strategy) :
    Except Error IPNet :=
  if parents = [] then .error .noParent
  else if strategyOrDefault s = .firstFit then
    match parents.findSome? fun parent => firstFitIn parent (viewParent parent existing) prefixLen with
    | some f => .ok f.cidr
    | none => .error .poolExhausted
  else
    match selectBlock (viewPool parents existing) prefixLen s with
    | some c => .ok c.cidr
    | none => .error .poolExhausted

structure PoolMeasurement where
  total : ℕ
  consumed : ℕ
  free : ℕ
  deriving DecidableEq, Repr

def measureViews (views : List ParentView) : PoolMeasurement :=
  let total := (views.map fun v => addressCount v.parent).sum
  let free := (views.map fun v => v.free).sum
  ⟨total, total - free, free⟩

end Ipam.Allocation
