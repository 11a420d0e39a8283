import Agouti.Primitives.Serialize

/-! # Network addresses

`CNetAddr` and `CService` of `netbase.h`: the bytes of an address, which is that of IPv6, and a
port, which is written with its high byte first. The kinds of addresses tell which are routable, and
the group of an address is what addresses of one network share.
-/

namespace Agouti

/-- The bytes of a `CNetAddr`, the first one lowest. -/
abbrev CNetAddr := BitVec 128

/-- An address and a port. -/
structure CService where
  ip : CNetAddr := 0
  port : BitVec 16 := 0
  deriving DecidableEq, Repr

/-- The bytes of a `CService`. -/
def CService.serialize (addr : CService) : List UInt8 :=
  Serialize.le 16 addr.ip.toNat ++ (Serialize.le 2 addr.port.toNat).reverse

def CService.getKey (addr : CService) : List UInt8 := addr.serialize

namespace CNetAddr

variable (addr : CNetAddr)

/-- The array `ip`. -/
def bytes : List UInt8 := Serialize.le 16 addr.toNat

def startsWith (first : List UInt8) : Bool := first.isPrefixOf addr.bytes

def getByte (n : Nat) : UInt8 := addr.bytes.getD (15 - n) 0

def pchIPv4 : List UInt8 := [0, 0, 0, 0, 0, 0, 0, 0, 0, 0, 0xff, 0xff]

def pchOnionCat : List UInt8 := [0xFD, 0x87, 0xD8, 0x7E, 0xEB, 0x43]

def isIPv4 : Bool := addr.startsWith pchIPv4

def isRFC1918 : Bool :=
  addr.isIPv4 && (addr.getByte 3 == 10 || addr.getByte 3 == 192 && addr.getByte 2 == 168 ||
    addr.getByte 3 == 172 && (16 ≤ addr.getByte 2 && addr.getByte 2 ≤ 31))

def isRFC2544 : Bool :=
  addr.isIPv4 && addr.getByte 3 == 198 && (addr.getByte 2 == 18 || addr.getByte 2 == 19)

def isRFC3927 : Bool := addr.isIPv4 && (addr.getByte 3 == 169 && addr.getByte 2 == 254)

def isRFC6598 : Bool :=
  addr.isIPv4 && addr.getByte 3 == 100 && 64 ≤ addr.getByte 2 && addr.getByte 2 ≤ 127

def isRFC5737 : Bool :=
  addr.isIPv4 && (addr.getByte 3 == 192 && addr.getByte 2 == 0 && addr.getByte 1 == 2 ||
    addr.getByte 3 == 198 && addr.getByte 2 == 51 && addr.getByte 1 == 100 ||
    addr.getByte 3 == 203 && addr.getByte 2 == 0 && addr.getByte 1 == 113)

def isRFC3849 : Bool := addr.startsWith [0x20, 0x01, 0x0D, 0xB8]

def isRFC3964 : Bool := addr.startsWith [0x20, 0x02]

def isRFC6052 : Bool := addr.startsWith [0, 0x64, 0xFF, 0x9B, 0, 0, 0, 0, 0, 0, 0, 0]

def isRFC4380 : Bool := addr.startsWith [0x20, 0x01, 0, 0]

def isRFC4862 : Bool := addr.startsWith [0xFE, 0x80, 0, 0, 0, 0, 0, 0]

def isRFC4193 : Bool := addr.getByte 15 &&& 0xFE == 0xFC

def isRFC6145 : Bool := addr.startsWith [0, 0, 0, 0, 0, 0, 0, 0, 0xFF, 0xFF, 0, 0]

def isRFC4843 : Bool :=
  addr.startsWith [0x20, 0x01, 0x00] && addr.getByte 12 &&& 0xF0 == 0x10

def isTor : Bool := addr.startsWith pchOnionCat

def isLocal : Bool :=
  addr.isIPv4 && (addr.getByte 3 == 127 || addr.getByte 3 == 0) ||
    addr.startsWith [0, 0, 0, 0, 0, 0, 0, 0, 0, 0, 0, 0, 0, 0, 0, 1]

def isValid : Bool :=
  if addr.startsWith (pchIPv4.drop 3) then false
  else if addr == 0 then false
  else if addr.isRFC3849 then false
  else if addr.isIPv4 then
    addr.bytes.drop 12 != [0xFF, 0xFF, 0xFF, 0xFF] && addr.bytes.drop 12 != [0, 0, 0, 0]
  else true

def isRoutable : Bool :=
  addr.isValid && !(addr.isRFC1918 || addr.isRFC2544 || addr.isRFC3927 || addr.isRFC4862 ||
    addr.isRFC6598 || addr.isRFC5737 || (addr.isRFC4193 && !addr.isTor) || addr.isRFC4843 ||
    addr.isLocal)

/-- The values of `enum Network`. -/
inductive Network
  | NET_UNROUTABLE
  | NET_IPV4
  | NET_IPV6
  | NET_TOR
  deriving DecidableEq, Repr

def Network.byte : Network → UInt8
  | .NET_UNROUTABLE => 0
  | .NET_IPV4 => 1
  | .NET_IPV6 => 2
  | .NET_TOR => 3

/-- A class, the first bits of the address behind a byte, and ones in the rest of the last byte. -/
def groupOf (nClass : UInt8) (nStartByte nBits : Nat) : List UInt8 :=
  let whole := (List.range (nBits / 8)).map fun i => addr.getByte (15 - (nStartByte + i))
  let rest := nBits % 8
  nClass :: whole ++
    if 0 < rest then
      [addr.getByte (15 - (nStartByte + nBits / 8)) ||| UInt8.ofNat ((1 <<< rest) - 1)]
    else []

def getGroup : List UInt8 :=
  -- a local address is not routable, so that its own class 255 is replaced at once
  if !addr.isRoutable then addr.groupOf Network.NET_UNROUTABLE.byte 0 0
  else if addr.isIPv4 || addr.isRFC6145 || addr.isRFC6052 then
    addr.groupOf Network.NET_IPV4.byte 12 16
  else if addr.isRFC3964 then addr.groupOf Network.NET_IPV4.byte 2 16
  else if addr.isRFC4380 then
    [Network.NET_IPV4.byte, addr.getByte 3 ^^^ 0xFF, addr.getByte 2 ^^^ 0xFF]
  else if addr.isTor then addr.groupOf Network.NET_TOR.byte 6 4
  else if addr.startsWith [0x20, 0x01, 0x04, 0x70] then addr.groupOf Network.NET_IPV6.byte 0 36
  else addr.groupOf Network.NET_IPV6.byte 0 32

end CNetAddr

end Agouti
