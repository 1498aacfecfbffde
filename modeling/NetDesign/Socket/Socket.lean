import NetDesign.Decimal

/-!
# The addresses of `Socket` (socket/socket.hpp)

`Accept` hands out the address of a client as text, and `Connect` takes one. What `inet_pton` does
not read leaves the address as `memset` made it, and its result is not looked at.

* `inetPton_eq_some_iff` — `inet_pton` reads what `inet_ntop` writes and no other text.
* `connect_reported` — where `Connect` connects to.
-/

namespace NetDesign.Socket

open Decimal (numeral value)

/-! ## Addresses -/

/-- Its bytes, in the order they are sent. -/
structure InAddr where
  a : Byte
  b : Byte
  c : Byte
  d : Byte
  deriving DecidableEq, Repr

/-- The bytes of `port` are in the order they are sent, too. -/
structure SockaddrIn where
  family : Nat
  port : Byte × Byte
  addr : InAddr
  deriving DecidableEq, Repr

def afInet : Nat := 2

def inaddrAny : InAddr := ⟨0, 0, 0, 0⟩

def htons (port : UInt16) : Byte × Byte :=
  (UInt8.ofNat (port.toNat / 256), UInt8.ofNat port.toNat)

def ntohs (port : Byte × Byte) : UInt16 := UInt16.ofNat (port.1.toNat * 256 + port.2.toNat)

/-- The character between two octets. -/
def dot : Byte := 46

def InAddr.octets (addr : InAddr) : List Byte := [addr.a, addr.b, addr.c, addr.d]

def inetNtop (addr : InAddr) : List Byte :=
  [dot].intercalate (addr.octets.map fun o => numeral o.toNat)

/-- A numeral below 256. -/
def octet (text : List Byte) : Option Byte :=
  (value text).bind fun n => if n < 256 then some (UInt8.ofNat n) else none

/-- Four octets. Like the usual implementations it takes no leading zeros. -/
def inetPton (text : List Byte) : Option InAddr :=
  match text.splitOn dot with
  | [a, b, c, d] => do return ⟨← octet a, ← octet b, ← octet c, ← octet d⟩
  | _ => none

variable {text ip : List Byte} {addr : InAddr} {o : Byte} {port : UInt16} {peer : SockaddrIn}

@[simp] theorem ntohs_htons (port : UInt16) : ntohs (htons port) = port := by
  have hlt := port.toNat_lt
  apply UInt16.toNat_inj.1
  simp only [ntohs, htons, UInt8.toNat_ofNat', UInt16.toNat_ofNat']
  omega

@[simp] theorem htons_ntohs (p : Byte × Byte) : htons (ntohs p) = p := by
  have hhigh := p.1.toNat_lt
  have hlow := p.2.toNat_lt
  refine Prod.ext ?_ ?_ <;> apply UInt8.toNat_inj.1
  · simp only [ntohs, htons, UInt8.toNat_ofNat', UInt16.toNat_ofNat']
    omega
  · simp only [ntohs, htons, UInt8.toNat_ofNat', UInt16.toNat_ofNat']
    omega

theorem octet_eq_some_iff : octet text = some o ↔ text = numeral o.toNat := by
  rw [octet, Option.bind_eq_some_iff]
  constructor
  · rintro ⟨n, hvalue, hn⟩
    split_ifs at hn with hlt
    cases hn
    rw [UInt8.toNat_ofNat', Nat.mod_eq_of_lt hlt]
    exact Decimal.value_eq_some_iff.1 hvalue
  · intro htext
    refine ⟨o.toNat, Decimal.value_eq_some_iff.2 htext, ?_⟩
    rw [if_pos o.toNat_lt, UInt8.ofNat_toNat]

theorem mem_numeral {b : Byte} {n : Nat} (h : b ∈ numeral n) : 48 ≤ b :=
  ((Decimal.canonical_numeral n).2.1 b h).1

/-- The octets of an address are what stands between its dots. -/
theorem splitOn_inetNtop (addr : InAddr) :
    (inetNtop addr).splitOn dot = addr.octets.map fun o => numeral o.toNat := by
  refine List.splitOn_intercalate dot (fun text htext hdot => ?_) (List.cons_ne_nil _ _)
  obtain ⟨o, -, rfl⟩ := List.mem_map.1 htext
  exact absurd (mem_numeral hdot) (by decide)

/-- **The text of an address is the only one that is read as it.** -/
theorem inetPton_eq_some_iff : inetPton text = some addr ↔ text = inetNtop addr := by
  constructor
  · intro h
    rw [inetPton] at h
    split at h
    case h_1 a b c d hsplit =>
      simp only [Option.pure_def, Option.bind_eq_bind, Option.bind_eq_some_iff, Option.some.injEq,
        octet_eq_some_iff] at h
      obtain ⟨a', rfl, b', rfl, c', rfl, d', rfl, rfl⟩ := h
      have hjoin : [dot].intercalate (text.splitOn dot) = text := List.intercalate_splitOn dot
      rw [← hjoin, hsplit]
      rfl
    case h_2 => cases h
  · intro h
    subst h
    have hoctet : ∀ o : Byte, octet (numeral o.toNat) = some o := fun o =>
      octet_eq_some_iff.2 rfl
    simp [inetPton, splitOn_inetNtop, InAddr.octets, hoctet]

example : inetPton (ascii "127.0.0.1") = some ⟨127, 0, 0, 1⟩ := by decide +kernel

example : inetPton (ascii "127.0.0.256") = none := by decide +kernel

/-! ## `Accept` and `Connect` -/

/-- The length of `ipstr`. -/
def ipstrLength : Nat := 64

/-- The text at the start of an array, up to its terminator. -/
def cStr (bytes : List Byte) : List Byte := bytes.takeWhile (· ≠ 0)

/-- `Accept(clientip, clientport)`, with `ipstr` as it is on the stack, and what `accept` returns
and stores: what it returns, and what it stores. -/
def accept (ipstr : Cells Byte) : Option (Int × SockaddrIn) → Int × Option (List Byte × UInt16)
  | some (newfd, peer) =>
    let ipstr := ipstr.write 0 (inetNtop peer.addr ++ [0])
    (newfd, some (cStr (ipstr.read 0 ipstrLength), ntohs peer.port))
  | none => (-1, none)

/-- `Connect`, where `kernel` is what `connect` returns: the result, and what is written to
`cerr`. -/
def connect (kernel : SockaddrIn → Int) (ip : List Byte) (port : UInt16) : Bool × List Byte :=
  let peer : SockaddrIn := ⟨0, (0, 0), inaddrAny⟩
  let peer := { peer with family := afInet, port := htons port }
  let peer := { peer with addr := (inetPton (cStr ip)).getD peer.addr }
  let n := kernel peer
  if n = -1 then
    (false, ascii "connect to " ++ ip ++ ascii ":" ++ numeral port.toNat ++ ascii " error\n")
  else (true, [])

/-- `Accept` reports the client `peer` as `ip` and `port`, whatever was on the stack. -/
def Reports (peer : SockaddrIn) (ip : List Byte) (port : UInt16) : Prop :=
  peer.family = afInet ∧
    ∀ ipstr newfd, accept ipstr (some (newfd, peer)) = (newfd, some (ip, port))

/-- Text that is stored with its terminator, in an array that has room for both, is read back. -/
theorem cStr_read {m : Cells Byte} (hzero : 0 ∉ text) {n : Nat} (hlen : text.length < n) :
    cStr ((m.write 0 (text ++ [0])).read 0 n) = text := by
  have hfront : ((m.write 0 (text ++ [0])).read 0 n).take (text ++ [0]).length = text ++ [0] := by
    have hroom : (text ++ [0]).length ≤ n := by simpa using hlen
    rw [Cells.take_read, Nat.min_eq_left hroom, Cells.read_write_self]
  rw [← List.take_append_drop (text ++ [0]).length (Cells.read _ 0 n), hfront, cStr,
    List.append_assoc, List.takeWhile_append_of_pos fun b hb => ?_]
  · simp
  · refine decide_eq_true fun heq => hzero (heq ▸ hb)

theorem length_numeral_le (o : Byte) : (numeral o.toNat).length ≤ 3 := by
  have hlt : o.toNat < 10 ^ 3 := o.toNat_lt.trans (by decide)
  rw [numeral]
  split_ifs
  · decide
  · rw [List.length_map, List.length_reverse]
    exact (Nat.digits_length_le_iff (by decide) _).2 hlt

theorem length_inetNtop_lt (addr : InAddr) : (inetNtop addr).length < ipstrLength := by
  have ha := length_numeral_le addr.a
  have hb := length_numeral_le addr.b
  have hc := length_numeral_le addr.c
  have hd := length_numeral_le addr.d
  simp [inetNtop, InAddr.octets, List.intercalate, ipstrLength]
  omega

theorem zero_notMem_inetNtop (addr : InAddr) : 0 ∉ inetNtop addr := by
  have hnumeral : ∀ n, 0 ∉ numeral n := fun n h => absurd (mem_numeral h) (by decide)
  have hdot : 0 ≠ dot := by decide
  simp [inetNtop, InAddr.octets, List.intercalate, hnumeral, hdot]

theorem reports_iff : Reports peer ip port ↔
    peer.family = afInet ∧ inetNtop peer.addr = ip ∧ ntohs peer.port = port := by
  refine and_congr_right fun _ => ?_
  have haccept : ∀ ipstr newfd, accept ipstr (some (newfd, peer)) =
      (newfd, some (inetNtop peer.addr, ntohs peer.port)) := by
    intro ipstr newfd
    rw [accept, cStr_read (zero_notMem_inetNtop _) (length_inetNtop_lt _)]
  have : Nonempty (Cells Byte) := ⟨fun _ => 0⟩
  simp [haccept]

/-- The address that `Connect` passes to `connect`. -/
theorem connect_fst (kernel : SockaddrIn → Int) (ip : List Byte) (port : UInt16) :
    (connect kernel ip port).1 = true ↔
      kernel ⟨afInet, htons port, (inetPton (cStr ip)).getD inaddrAny⟩ ≠ -1 := by
  simp only [connect]
  split_ifs with hfailed <;> simp [hfailed]

/-- **Where `Connect` connects to.** If `Accept` reports some client as this address and port, it
reports no other one so, and `Connect` succeeds exactly if `connect` does for that client. If not,
`connect` is asked for 0.0.0.0, and `Connect` succeeds if that does. -/
theorem connect_reported (ip : List Byte) (port : UInt16) :
    (∃ peer, (∀ peer', Reports peer' (cStr ip) port ↔ peer' = peer) ∧
      ∀ kernel, (connect kernel ip port).1 = true ↔ kernel peer ≠ -1) ∨
    ((∀ peer, ¬ Reports peer (cStr ip) port) ∧
      ∀ kernel, (connect kernel ip port).1 = true ↔
        kernel ⟨afInet, htons port, inaddrAny⟩ ≠ -1) := by
  cases hread : inetPton (cStr ip) with
  | some addr =>
    refine .inl ⟨⟨afInet, htons port, addr⟩, fun peer => ?_, fun kernel => ?_⟩
    · have htext : cStr ip = inetNtop addr := inetPton_eq_some_iff.1 hread
      rw [reports_iff]
      constructor
      · rintro ⟨hfamily, haddr, rfl⟩
        have hpeer : inetPton (cStr ip) = some peer.addr := inetPton_eq_some_iff.2 haddr.symm
        obtain rfl := Option.some.inj (hpeer.symm.trans hread)
        rw [htons_ntohs, ← hfamily]
      · rintro rfl
        exact ⟨rfl, htext.symm, ntohs_htons port⟩
    · rw [connect_fst, hread, Option.getD_some]
  | none =>
    refine .inr ⟨fun peer hreports => ?_, fun kernel => ?_⟩
    · obtain ⟨-, htext, -⟩ := reports_iff.1 hreports
      rw [inetPton_eq_some_iff.2 htext.symm] at hread
      cases hread
    · rw [connect_fst, hread, Option.getD_none]

end NetDesign.Socket
