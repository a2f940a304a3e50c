import Ipam.Lib.Dyadic

namespace Ipam.Allocation

inductive Family where
  | v4
  | v6
  deriving DecidableEq, Repr

def Family.bits : Family → ℕ
  | .v4 => 32
  | .v6 => 128

/-- A `net.IP`: a slice of four or of sixteen bytes, read as one big-endian number. -/
structure IP where
  family : Family
  addr : ℕ
  addr_lt : addr < 2 ^ family.bits
  deriving DecidableEq, Repr

def v4InV6Prefix : ℕ := 0xffff

def mappedStart : ℕ := v4InV6Prefix * 2 ^ 32

def IP.to4 (ip : IP) : Option ℕ :=
  match ip.family with
  | .v4 => some ip.addr
  | .v6 => if ip.addr / 2 ^ 32 = v4InV6Prefix then some (ip.addr % 2 ^ 32) else none

def IP.shortest (ip : IP) : Family × ℕ :=
  match ip.to4 with
  | some a => (.v4, a)
  | none => (.v6, ip.addr)

/-- A `net.IPNet`. Its mask is canonical and as wide as its address, as `net.ParseCIDR` and
`makeCIDR` build them. -/
structure IPNet where
  ip : IP
  ones : ℕ
  ones_le : ones ≤ ip.family.bits
  deriving DecidableEq, Repr

abbrev IPNet.bits (n : IPNet) : Family := n.ip.family

def sameFamily (a b : IP) : Bool :=
  a.to4.isSome == b.to4.isSome

def ipToInt (ip : IP) : ℕ :=
  match ip.to4 with
  | some v4 => v4
  | none => ip.addr

def intToIP (i : ℕ) (bits : Family) : IP :=
  if h : i < 2 ^ bits.bits then ⟨bits, i, h⟩ else ⟨bits, 0, by positivity⟩

def blockSize (prefixLen totalBits : ℕ) : ℕ :=
  2 ^ (totalBits - prefixLen)

def IP.mask (ip : IP) (ones : ℕ) : IP :=
  ⟨ip.family, ip.addr - ip.addr % blockSize ones ip.family.bits, by have := ip.addr_lt; omega⟩

def cidrFirstAddr (cidr : IPNet) : ℕ :=
  ipToInt (cidr.ip.mask cidr.ones)

def cidrLastAddr (cidr : IPNet) : ℕ :=
  cidrFirstAddr cidr + blockSize cidr.ones cidr.bits.bits - 1

def cidrBounds (cidr : IPNet) : ℕ × ℕ :=
  (cidrFirstAddr cidr, cidrFirstAddr cidr + blockSize cidr.ones cidr.bits.bits - 1)

def cidrSize (cidr : IPNet) : ℕ :=
  blockSize cidr.ones cidr.bits.bits

def addressCount (cidr : IPNet) : ℕ :=
  2 ^ (cidr.bits.bits - cidr.ones)

def alignUp (v prefixLen totalBits : ℕ) : ℕ :=
  Dyadic.ceil v (blockSize prefixLen totalBits)

def makeCIDR (start prefixLen : ℕ) (totalBits : Family) (h : prefixLen ≤ totalBits.bits) : IPNet :=
  ⟨intToIP start totalBits, prefixLen, by unfold intToIP; split <;> exact h⟩

/-- `networkNumberAndMask` of the `net` package: a mapped network is read as an IPv4 one. -/
def IPNet.networkNumberAndMask (n : IPNet) : Family × ℕ × ℕ :=
  match n.ip.family, n.ip.shortest with
  | .v6, (.v4, a) => (.v4, a, n.ones - 96)
  | _, (f, a) => (f, a, n.ones)

def IPNet.contains (n : IPNet) (ip : IP) : Bool :=
  let (f, nn, l) := n.networkNumberAndMask
  let (g, x) := ip.shortest
  f == g && nn / blockSize l f.bits == x / blockSize l f.bits

def cidrsOverlap (a b : IPNet) : Bool :=
  sameFamily a.ip b.ip && (a.contains b.ip || b.contains a.ip)

def cidrContains (parent child : IPNet) : Bool :=
  sameFamily parent.ip child.ip && cidrFirstAddr parent ≤ cidrFirstAddr child &&
    cidrLastAddr child ≤ cidrLastAddr parent

end Ipam.Allocation
