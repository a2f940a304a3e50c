import Ipam.Allocation.Scan
import Ipam.Database.PoolState

namespace Ipam.Allocation

def IP.string : IP → IP
  | ⟨.v4, a, h⟩ => ⟨.v4, a, h⟩
  | ⟨.v6, a, h⟩ => if a / 2 ^ 32 = v4InV6Prefix then ⟨.v4, a % 2 ^ 32, Nat.mod_lt _ (by positivity)⟩ else ⟨.v6, a, h⟩

end Ipam.Allocation

namespace Ipam.Allocator

open Allocation Database Transaction

def send (q : Stmt) : Tx (Res q) :=
  Prog.call q

def searchPageSize : ℕ := 256

def searchPageLimit : ℕ := 100000

def spaceAll : String := ""

def searchPage (pageSize : ℕ) (poolKey : Key) (digest : String) (parent : Cidr) (start : IP) (scan : Scan) :
    Tx Scan := do
  let page : List Cidr ← send (.loadBlocksFrom poolKey digest start.string parent pageSize)
  if page = [] then pure scan.atEnd
  else Prog.ofExcept .allocation (scan.feed (page.map Cidr.net))

def searchPass (pageSize : ℕ) (poolKey : Key) (digest : String) (scan : Scan) : Tx Scan :=
  match scan.need with
  | none => pure scan
  | some (parent, start) => do
    let text ← Prog.ofOption .invalidCidr parent.string
    let covering : List Cidr ← send (.loadBlocksCovering poolKey digest start.string text)
    let scan ← Prog.ofExcept .allocation (scan.feed (covering.map Cidr.net))
    if scan.done then pure scan
    -- the probe moved the cursor: probe again before paging
    else if scan.need.any fun moved => moved.2 ≠ start then pure scan
    else searchPage pageSize poolKey digest text start scan

def searchLoop (pageSize : ℕ) (poolKey : Key) (digest : String) : ℕ → Scan → Tx Scan
  | pages, scan =>
    if scan.done then pure scan
    else
      match pages with
      | 0 => .throw .searchDidNotAdvance
      | pages + 1 => do
        let scan ← searchPass pageSize poolKey digest scan
        searchLoop pageSize poolKey digest pages scan

def boundedFirstFit (pageSize pageLimit : ℕ) (poolKey : Key) (digest : String) (parents : List IPNet)
    (prefixLen : ℤ) (floor : Option IP) : Tx (IPNet × Option IP) := do
  let scan ← Prog.ofExcept .allocation (Scan.newScan parents prefixLen floor)
  let scan ← searchLoop pageSize poolKey digest pageLimit scan
  let block ← Prog.ofExcept .allocation scan.getResult
  pure (block, scan.getFirstFree)

def lockSearchFloor (poolKey : Key) (digest : String) (base : IP) : Tx (Option IP) := do
  send (.seedFloor poolKey digest base.string)
  send (.lockFloor poolKey digest)

def raiseSearchFloor (poolKey : Key) (digest : String) (observed next : Option IP) : Tx Unit :=
  match next with
  | none => pure ()
  | some next =>
    match observed with
    | none => send (.seedFloor poolKey digest next.string)
    | some observed => send (.raiseFloor poolKey digest next.string observed.string)

def findBlock (poolKey : Key) (digest : String) (parents : List IPNet) (prefixLen : ℤ) (strategy : Strategy) :
    Tx IPNet :=
  if strategy ≠ .unset ∧ strategy ≠ .firstFit then do
    let existing : List Cidr ← send (.loadAllocations poolKey digest)
    Prog.ofExcept .allocation (findFirstAvailableBlock parents (existing.map Cidr.net) prefixLen strategy)
  else if digest = spaceAll then do
    let found ← boundedFirstFit searchPageSize searchPageLimit poolKey spaceAll parents prefixLen none
    pure found.1
  else
    match parents with
    | [] => .throw (.allocation .noParent)
    | parent :: _ => do
      let observed ← lockSearchFloor poolKey digest parent.ip
      let found ← boundedFirstFit searchPageSize searchPageLimit poolKey digest parents prefixLen observed
      raiseSearchFloor poolKey digest observed found.2
      pure found.1

end Ipam.Allocator
