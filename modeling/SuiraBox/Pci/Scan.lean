/-
# The scan of the PCI bus

`kernel/pci.c`: configuration space is read through the ports 0xCF8 and 0xCFC, and `pci_enumerate`
prints a line for every function that it finds on the serial port.

The scan stops after 128 functions.  Of a device whose function 0 is there and does not claim to
have more than one function, only that one is looked at; if function 0 is missing, the other seven
are looked at all the same.
-/

import SuiraBox.Library.HexText
import SuiraBox.Library.Loops
import SuiraBox.Mm.Pmm

namespace SuiraBox.Pci

open HexText Trace

/-! ### The ports -/

/-- What the registers of all functions hold, by bus, device, function and register. -/
abbrev ConfigSpace := U8 → BitVec 5 → BitVec 3 → BitVec 6 → U32

/-- The address that the host bridge has latched, and the text on the serial port. -/
structure Host where
  address : U32
  serial : List Char

/-- The register that an address selects; nothing is selected without bit 31. -/
def select (space : ConfigSpace) (address : U32) : U32 :=
  if address.getLsbD 31 then
    space (address.extractLsb' 16 8) (address.extractLsb' 11 5) (address.extractLsb' 8 3)
      (address.extractLsb' 2 6)
  else 0xFFFFFFFF

abbrev Code := StateM Host

def outl (port : U16) (value : U32) : Code Unit :=
  modify fun h => if port = 0xCF8 then { h with address := value } else h

def inl (space : ConfigSpace) (port : U16) : Code U32 := do
  let h ← get
  return if port = 0xCFC then select space h.address else 0xFFFFFFFF

/-- `serial_char`: the byte that goes to port `0x3F8`. The wait for the transmitter before it, a
loop that reads port `0x3FD` until bit 5 is set, is left out: the port is taken to be ready. -/
def serialChar (c : Char) : Code Unit := modify fun h => { h with serial := h.serial ++ [c] }

/-- `serial_write`. -/
def serialWrite (s : List Char) : Code Unit := s.forM serialChar

/-- `serial_hex16`. -/
def serialHex16 (value : U16) : Code Unit :=
  [12, 8, 4, 0].forM fun shift => serialChar (nibble value shift)

/-- `serial_hex8`. -/
def serialHex8 (value : U8) : Code Unit := do
  serialChar (digit ((value >>> 4) &&& 0xF).toNat)
  serialChar (digit (value &&& 0xF).toNat)

/-! ### Configuration space -/

/-- `pci_config_address`. -/
def pciConfigAddress (bus device function offset : U8) : U32 :=
  0x80000000 ||| (bus.setWidth 32 <<< 16) ||| (device.setWidth 32 <<< 11) |||
    (function.setWidth 32 <<< 8) ||| (offset &&& 0xFC).setWidth 32

section Read

variable (space : ConfigSpace)

/-- `pci_config_read32`. -/
def pciConfigRead32 (bus device function offset : U8) : Code U32 :=
  if 32 ≤ device ∨ 8 ≤ function then pure 0xFFFFFFFF
  else do
    outl 0xCF8 (pciConfigAddress bus device function offset)
    inl space 0xCFC

/-- `pci_config_read16`. -/
def pciConfigRead16 (bus device function offset : U8) : Code U16 := do
  let value ← pciConfigRead32 space bus device function (offset &&& 0xFC)
  let shift := (offset &&& 2) * 8
  return ((value >>> shift.toNat) &&& 0xFFFF).setWidth 16

/-- `pci_class`. -/
def pciClass (bus device function : U8) : Code U8 := do
  return ((← pciConfigRead32 space bus device function 0x08) >>> 24).setWidth 8

/-- `pci_subclass`. -/
def pciSubclass (bus device function : U8) : Code U8 := do
  return ((← pciConfigRead32 space bus device function 0x08) >>> 16).setWidth 8

/-- `pci_prog_if`. -/
def pciProgIf (bus device function : U8) : Code U8 := do
  return ((← pciConfigRead32 space bus device function 0x08) >>> 8).setWidth 8

/-- `pci_class_name`. -/
def pciClassName (classCode : U8) : List Char :=
  if classCode = 0x01 then "mass-storage".toList
  else if classCode = 0x02 then "network".toList
  else if classCode = 0x03 then "display".toList
  else if classCode = 0x04 then "multimedia".toList
  else if classCode = 0x06 then "bridge".toList
  else "other".toList

/-! ### The scan -/

/-- The loops go on, with this many functions found, or `pci_enumerate` has returned. -/
inductive Flow
  | go (found : U32)
  | returned

def scanText : List Char := "PCI: scanning bus/device/function space...\r\n".toList

def limitText : List Char := "PCI: inventory limit reached (128 devices).\r\n".toList

def completeText : List Char := "PCI: scan complete.\r\n".toList

/-- The line for one function. -/
def printFunction (bus device function : U8) (vendor id : U16) (classCode subclass progIf : U8) :
    Code Unit := do
  serialChar '0'
  serialChar '0'
  serialChar ':'
  serialHex8 bus
  serialChar '.'
  serialHex8 device
  serialChar '.'
  serialChar (Char.ofNat ('0'.toNat + function.toNat))
  serialWrite " vendor=0x".toList
  serialHex16 vendor
  serialWrite " device=0x".toList
  serialHex16 id
  serialWrite " class=0x".toList
  serialHex8 classCode
  serialWrite "/0x".toList
  serialHex8 subclass
  serialWrite " prog=0x".toList
  serialHex8 progIf
  serialWrite " (".toList
  serialWrite (pciClassName classCode)
  serialWrite ")\r\n".toList

/-- The loop over the functions of a device. -/
def scanFunctions (bus device : U8) : List U8 → U32 → Code Flow
  | [], found => pure (.go found)
  | function :: functions, found => do
    let vendor ← pciConfigRead16 space bus device function 0x00
    if vendor = 0xFFFF then scanFunctions bus device functions found
    else
      let id ← pciConfigRead16 space bus device function 0x02
      let classCode ← pciClass space bus device function
      let subclass ← pciSubclass space bus device function
      let progIf ← pciProgIf space bus device function
      printFunction bus device function vendor id classCode subclass progIf
      let found := found + 1
      if 128 ≤ found then
        serialWrite limitText
        serialWrite completeText
        pure .returned
      else if function = 0 then
        let headerType := ((← pciConfigRead32 space bus device function 0x0C) >>> 16).setWidth 8
        if headerType &&& (0x80 : U8) = 0 then pure (.go found)
        else scanFunctions bus device functions found
      else scanFunctions bus device functions found

/-- The loop over the devices of a bus. -/
def scanDevices (bus : U8) : List U8 → U32 → Code Flow
  | [], found => pure (.go found)
  | device :: devices, found => do
    match ← scanFunctions space bus device (indices 0 8) found with
    | .go found => scanDevices bus devices found
    | .returned => pure .returned

/-- The loop over the buses. -/
def scanBuses : List U16 → U32 → Code Flow
  | [], found => pure (.go found)
  | bus :: buses, found => do
    match ← scanDevices space (bus.setWidth 8) (indices 0 32) found with
    | .go found => scanBuses buses found
    | .returned => pure .returned

/-- `pci_enumerate`. -/
def pciEnumerate : Code Unit := do
  serialWrite scanText
  match ← scanBuses space (indices 0 256) 0 with
  | .go _ => serialWrite completeText
  | .returned => pure ()

end Read

/-! ### Code that prints -/

/-- The code returns `a` and prints `text`; it may leave any address in the host bridge. -/
def Emits {α : Type} (x : Code α) (a : α) (text : List Char) : Prop :=
  ∀ h, ∃ address, x.run h = (a, ⟨address, h.serial ++ text⟩)

section Emits

variable {α β : Type} {x : Code α} {f : α → Code β} {a : α} {b : β} {s t : List Char}

theorem emits_pure (a : α) : Emits (pure a) a [] :=
  fun h => ⟨h.address, by simp [StateT.run_pure]; rfl⟩

/-- Texts come one after the other. -/
theorem Emits.bind (hx : Emits x a s) (hf : Emits (f a) b t) : Emits (x >>= f) b (s ++ t) := by
  intro h
  obtain ⟨address, hrun⟩ := hx h
  obtain ⟨address', hrun'⟩ := hf ⟨address, h.serial ++ s⟩
  refine ⟨address', ?_⟩
  rw [StateT.run_bind, hrun, ← List.append_assoc]
  exact hrun'

/-- What is read or computed prints nothing. -/
theorem Emits.bind_silent (hx : Emits x a []) (hf : Emits (f a) b t) : Emits (x >>= f) b t :=
  hx.bind hf

/-- A change of the result prints nothing. -/
theorem Emits.map {g : α → β} (hx : Emits x a []) : Emits (do return g (← x)) (g a) [] :=
  hx.bind (emits_pure _)

theorem emits_serialChar (c : Char) : Emits (serialChar c) () [c] := fun h => ⟨h.address, rfl⟩

theorem emits_forM {ι : Type} {g : ι → Code Unit} {text : ι → List Char}
    (hg : ∀ i, Emits (g i) () (text i)) (l : List ι) : Emits (l.forM g) () (l.flatMap text) := by
  induction l with
  | nil => exact emits_pure ()
  | cons i l ih => exact (hg i).bind ih

theorem emits_serialWrite (s : List Char) : Emits (serialWrite s) () s := by
  have h := emits_forM emits_serialChar s
  rwa [List.flatMap_singleton'] at h

theorem emits_serialHex16 (value : U16) : Emits (serialHex16 value) () (fixed value 4) :=
  emits_forM (fun _ => emits_serialChar _) _

theorem emits_serialHex8 (value : U8) : Emits (serialHex8 value) () (fixed value 2) := by
  have hlow : digit (value &&& 0xF).toNat = nibble value 0 := by
    rw [nibble, BitVec.ushiftRight_zero]
  rw [serialHex8, hlow]
  exact (emits_serialChar _).bind (emits_serialChar _)

end Emits

/-! ### What is read -/

/-- The place of a function. -/
structure Location where
  bus : U8
  device : BitVec 5
  function : BitVec 3
  deriving DecidableEq

/-- The address, as a number. -/
theorem toNat_pciConfigAddress (bus offset : U8) {device function : U8}
    (hdevice : device.toNat < 32) (hfunction : function.toNat < 8) :
    (pciConfigAddress bus device function offset).toNat =
      2 ^ 31 + 2 ^ 16 * bus.toNat + 2 ^ 11 * device.toNat + 2 ^ 8 * function.toNat +
        4 * (offset.toNat / 4) := by
  have hbus := bus.isLt
  have hshift : ∀ (v : U8) (k : ℕ), k ≤ 24 →
      (v.setWidth 32 <<< k : U32).toNat = 2 ^ k * v.toNat := by
    intro v k hk
    have hpow : 2 ^ k * v.toNat < 2 ^ 32 :=
      calc 2 ^ k * v.toNat < 2 ^ k * 2 ^ 8 := Nat.mul_lt_mul_of_pos_left v.isLt (Nat.two_pow_pos k)
        _ = 2 ^ (k + 8) := (Nat.pow_add 2 k 8).symm
        _ ≤ 2 ^ 32 := Nat.pow_le_pow_right (by decide) (by omega)
    rw [BitVec.toNat_shiftLeft, BitVec.toNat_setWidth_of_le (by decide), Nat.shiftLeft_eq,
      Nat.mul_comm, Nat.mod_eq_of_lt hpow]
  have hoffset : ((offset &&& 0xFC).setWidth 32 : U32).toNat = 4 * (offset.toNat / 4) := by
    have hrun : offset.toNat &&& 252 = offset.toNat / 2 ^ 2 % 2 ^ 6 * 2 ^ 2 := Words.land_run _ 2 6
    have := offset.isLt
    rw [BitVec.toNat_setWidth_of_le (by decide), BitVec.toNat_and]
    change offset.toNat &&& 252 = _
    omega
  have h₁ : (0x80000000 ||| bus.setWidth 32 <<< 16 : U32).toNat = 2 ^ 31 + 2 ^ 16 * bus.toNat := by
    rw [Words.toNat_or_of_lt (k := 31) (q := 1) rfl (by rw [hshift bus 16 (by decide)]; omega),
      hshift bus 16 (by decide)]
    rfl
  have h₂ : (0x80000000 ||| bus.setWidth 32 <<< 16 ||| device.setWidth 32 <<< 11 : U32).toNat =
      2 ^ 31 + 2 ^ 16 * bus.toNat + 2 ^ 11 * device.toNat := by
    rw [Words.toNat_or_of_lt (k := 16) (q := 2 ^ 15 + bus.toNat) (by rw [h₁]; omega)
      (by rw [hshift device 11 (by decide)]; omega), h₁, hshift device 11 (by decide)]
  have h₃ : (0x80000000 ||| bus.setWidth 32 <<< 16 ||| device.setWidth 32 <<< 11 |||
      function.setWidth 32 <<< 8 : U32).toNat =
      2 ^ 31 + 2 ^ 16 * bus.toNat + 2 ^ 11 * device.toNat + 2 ^ 8 * function.toNat := by
    rw [Words.toNat_or_of_lt (k := 11) (q := 2 ^ 20 + 2 ^ 5 * bus.toNat + device.toNat)
      (by rw [h₂]; omega)
      (by rw [hshift function 8 (by decide)]; omega), h₂, hshift function 8 (by decide)]
  rw [pciConfigAddress, Words.toNat_or_of_lt (k := 8)
    (q := 2 ^ 23 + 2 ^ 8 * bus.toNat + 2 ^ 3 * device.toNat + function.toNat) (by rw [h₃]; omega)
    (by rw [hoffset]; have := offset.isLt; omega), h₃, hoffset]

/-- **The address selects the register it names.** -/
theorem select_pciConfigAddress (space : ConfigSpace) (bus : U8) (device : BitVec 5)
    (function : BitVec 3) (offset : U8) :
    select space (pciConfigAddress bus (device.setWidth 8) (function.setWidth 8) offset) =
      space bus device function (offset.extractLsb' 2 6) := by
  have hd : (device.setWidth 8 : U8).toNat = device.toNat := BitVec.toNat_setWidth_of_le (by decide)
  have hf : (function.setWidth 8 : U8).toNat = function.toNat :=
    BitVec.toNat_setWidth_of_le (by decide)
  have haddress := toNat_pciConfigAddress bus offset (lt_of_eq_of_lt hd device.isLt)
    (lt_of_eq_of_lt hf function.isLt)
  rw [hd, hf] at haddress
  generalize pciConfigAddress bus (device.setWidth 8) (function.setWidth 8) offset = address
    at haddress ⊢
  have hbusLt := bus.isLt
  have hdeviceLt := device.isLt
  have hfunctionLt := function.isLt
  have hoffsetLt := offset.isLt
  have hfield : ∀ {l : ℕ} (s : ℕ) (x : BitVec l), address.toNat / 2 ^ s % 2 ^ l = x.toNat →
      address.extractLsb' s l = x := fun s x h =>
    BitVec.eq_of_toNat_eq (by rw [BitVec.extractLsb'_toNat, Nat.shiftRight_eq_div_pow, h])
  have hselected : address.getLsbD 31 = true := by
    change address.toNat.testBit 31 = true
    rw [Nat.testBit_eq_decide_div_mod_eq, decide_eq_true_iff]
    omega
  have hoff : (offset.extractLsb' 2 6).toNat = offset.toNat / 4 := by
    rw [BitVec.extractLsb'_toNat, Nat.shiftRight_eq_div_pow]
    omega
  rw [select, if_pos hselected, hfield 16 bus (by omega), hfield 11 device (by omega),
    hfield 8 function (by omega), hfield 2 (offset.extractLsb' 2 6) (by omega)]

section Registers

variable (space : ConfigSpace) (l : Location)

/-- A register of a function. -/
def reg (r : BitVec 6) : U32 := space l.bus l.device l.function r

def vendorAt : U16 := (reg space l 0).setWidth 16

def idAt : U16 := (reg space l 0 >>> 16).setWidth 16

def classAt : U8 := (reg space l 2 >>> 24).setWidth 8

def subclassAt : U8 := (reg space l 2 >>> 16).setWidth 8

def progIfAt : U8 := (reg space l 2 >>> 8).setWidth 8

def headerTypeAt : U8 := (reg space l 3 >>> 16).setWidth 8

/-- The parameters that the code has for the place. -/
def Location.code {β : Type} (f : U8 → U8 → U8 → β) : β :=
  f l.bus (l.device.setWidth 8) (l.function.setWidth 8)

/-- A read of the configuration space gives the register. -/
theorem emits_read32 (offset : U8) :
    Emits (l.code fun b d f => pciConfigRead32 space b d f offset)
    (reg space l (offset.extractLsb' 2 6)) [] := by
  have hd : (l.device.setWidth 8 : U8).toNat < 32 := by
    rw [BitVec.toNat_setWidth_of_le (by decide)]
    exact l.device.isLt
  have hf : (l.function.setWidth 8 : U8).toNat < 8 := by
    rw [BitVec.toNat_setWidth_of_le (by decide)]
    exact l.function.isLt
  have hbounds : ¬ (32 ≤ (l.device.setWidth 8 : U8) ∨ 8 ≤ (l.function.setWidth 8 : U8)) :=
    not_or.2 ⟨Nat.not_le.2 hd, Nat.not_le.2 hf⟩
  rw [Location.code, pciConfigRead32, if_neg hbounds, reg,
    ← select_pciConfigAddress space l.bus l.device l.function offset]
  exact fun h => ⟨_, by simp [outl, inl]; rfl⟩

theorem emits_vendor :
    Emits (l.code fun b d f => pciConfigRead16 space b d f 0x00) (vendorAt space l) [] := by
  have hvalue : (((reg space l 0) >>> 0) &&& 0xFFFF).setWidth 16 = vendorAt space l := by
    refine BitVec.eq_of_toNat_eq ?_
    rw [Words.toNat_setWidth_and _ rfl, BitVec.ushiftRight_zero, vendorAt, BitVec.toNat_setWidth]
  have hread :=
    (emits_read32 space l 0x00).map (g := fun value : U32 => ((value >>> 0) &&& 0xFFFF).setWidth 16)
  exact hvalue ▸ hread

theorem emits_id :
    Emits (l.code fun b d f => pciConfigRead16 space b d f 0x02) (idAt space l) [] := by
  have hvalue : (((reg space l 0) >>> 16) &&& 0xFFFF).setWidth 16 = idAt space l := by
    refine BitVec.eq_of_toNat_eq ?_
    rw [Words.toNat_setWidth_and _ rfl, idAt, BitVec.toNat_setWidth]
  have hread :=
    (emits_read32 space l 0x00).map (g := fun value : U32 =>
      ((value >>> 16) &&& 0xFFFF).setWidth 16)
  exact hvalue ▸ hread

theorem emits_class : Emits (l.code fun b d f => pciClass space b d f) (classAt space l) [] :=
  (emits_read32 space l 0x08).map

theorem emits_subclass :
    Emits (l.code fun b d f => pciSubclass space b d f) (subclassAt space l) [] :=
  (emits_read32 space l 0x08).map

theorem emits_progIf : Emits (l.code fun b d f => pciProgIf space b d f) (progIfAt space l) [] :=
  (emits_read32 space l 0x08).map

end Registers

/-! ### What is to be printed -/

/-- What a line tells of a function. -/
structure Entry where
  location : Location
  vendor : U16
  id : U16
  classCode : U8
  subclass : U8
  progIf : U8
  deriving DecidableEq

/-- The line of a function up to the name of its class, which depends on what has been printed. -/
def Entry.front (e : Entry) : List Char :=
  ['0', '0', ':'] ++ (fixed e.location.bus 2 ++
    (['.'] ++ (fixed (e.location.device.setWidth 8 : U8) 2 ++
    (['.'] ++ ([digit e.location.function.toNat] ++
    (" vendor=0x".toList ++ (fixed e.vendor 4 ++
    (" device=0x".toList ++ (fixed e.id 4 ++
    (" class=0x".toList ++ (fixed e.classCode 2 ++
    ("/0x".toList ++ (fixed e.subclass 2 ++
    (" prog=0x".toList ++ (fixed e.progIf 2 ++ " (".toList)))))))))))))))

def Entry.line (e : Entry) : List Char := e.front ++ (pciClassName e.classCode ++ ")\r\n".toList)

section Inventory

variable (space : ConfigSpace)

def entryAt (l : Location) : Entry :=
  ⟨l, vendorAt space l, idAt space l, classAt space l, subclassAt space l, progIfAt space l⟩

/-- There is a function at this place. -/
def present (l : Location) : Bool := vendorAt space l != 0xFFFF

/-- Function 0 of the device is there, and is the only one as far as its header tells. -/
def lone (bus : U8) (device : BitVec 5) : Bool :=
  present space ⟨bus, device, 0⟩ && headerTypeAt space ⟨bus, device, 0⟩ &&& 0x80 == 0

/-- The functions to be listed. -/
def visible (l : Location) : Bool :=
  present space l && (l.function == 0 || !lone space l.bus l.device)

/-- All places, in the order of the scan. -/
def functionsOf (bus : U8) (device : BitVec 5) : List Location :=
  (List.range 8).map fun f => ⟨bus, device, BitVec.ofNat 3 f⟩

def devicesOf (bus : U8) : List Location :=
  (List.range 32).flatMap fun d => functionsOf bus (BitVec.ofNat 5 d)

def locations : List Location := (List.range 256).flatMap fun b => devicesOf (BitVec.ofNat 8 b)

def listed (ls : List Location) : List Entry := (ls.filter (visible space)).map (entryAt space)

/-- All functions to be listed. -/
def found : List Entry := listed space locations

/-- The first 128 of them. -/
def inventory : List Entry := (found space).take 128

/-- The text of the scan. -/
def report : List Char :=
  scanText ++ ((inventory space).flatMap Entry.line ++
    ((if 128 ≤ (found space).length then limitText else []) ++ completeText))

end Inventory

/-! ### The scan prints it -/

/-- The digit of a function number. -/
theorem ofNat_function (f : BitVec 3) :
    Char.ofNat ('0'.toNat + (f.setWidth 8 : U8).toNat) = digit f.toNat := by
  have hall : ∀ f : BitVec 3, Char.ofNat ('0'.toNat + (f.setWidth 8 : U8).toNat) =
      digit f.toNat := by decide
  exact hall f

theorem emits_printFunction (e : Entry) :
    Emits (e.location.code fun b d f =>
      printFunction b d f e.vendor e.id e.classCode e.subclass e.progIf) () e.line := by
  rw [Location.code, printFunction, ofNat_function]
  have hline : e.line = ['0'] ++ (['0'] ++ ([':'] ++ (fixed e.location.bus 2 ++
      (['.'] ++ (fixed (e.location.device.setWidth 8 : U8) 2 ++
      (['.'] ++ ([digit e.location.function.toNat] ++
      (" vendor=0x".toList ++ (fixed e.vendor 4 ++
      (" device=0x".toList ++ (fixed e.id 4 ++
      (" class=0x".toList ++ (fixed e.classCode 2 ++
      ("/0x".toList ++ (fixed e.subclass 2 ++
      (" prog=0x".toList ++ (fixed e.progIf 2 ++
      (" (".toList ++ (pciClassName e.classCode ++ ")\r\n".toList))))))))))))))))))) := by
    simp only [Entry.line, Entry.front, List.append_assoc]
    rfl
  rw [hline]
  refine (emits_serialChar _).bind <| (emits_serialChar _).bind <| (emits_serialChar _).bind <|
    (emits_serialHex8 _).bind <| (emits_serialChar _).bind <| (emits_serialHex8 _).bind <|
    (emits_serialChar _).bind <| (emits_serialChar _).bind <| (emits_serialWrite _).bind <|
    (emits_serialHex16 _).bind <| (emits_serialWrite _).bind <| (emits_serialHex16 _).bind <|
    (emits_serialWrite _).bind <| (emits_serialHex8 _).bind <| (emits_serialWrite _).bind <|
    (emits_serialHex8 _).bind <| (emits_serialWrite _).bind <| (emits_serialHex8 _).bind <|
    (emits_serialWrite _).bind <| (emits_serialWrite _).bind (emits_serialWrite _)

/-- A part of the scan that comes to these entries: with `n` functions found before, it prints all
of them and goes on, or prints up to the 128th function and returns. -/
def Scans (x : U32 → Code Flow) (entries : List Entry) : Prop := ∀ n < 128,
  if n + entries.length < 128 then
    Emits (x (BitVec.ofNat 32 n)) (.go (BitVec.ofNat 32 (n + entries.length)))
      (entries.flatMap Entry.line)
  else
    Emits (x (BitVec.ofNat 32 n)) .returned
      ((entries.take (128 - n)).flatMap Entry.line ++ (limitText ++ completeText))

theorem scans_nil : Scans (fun found => pure (.go found)) [] := fun n hn => by
  rw [if_pos (by simpa using hn)]
  exact emits_pure _

/-- One part after the other. -/
theorem Scans.seq {x y : U32 → Code Flow} {as bs : List Entry} (hx : Scans x as) (hy : Scans y bs) :
    Scans (fun found => do
      match ← x found with
      | .go found => y found
      | .returned => pure .returned) (as ++ bs) := by
  intro n hn
  have hxn := hx n hn
  by_cases has : n + as.length < 128
  · rw [if_pos has] at hxn
    have hyn := hy (n + as.length) has
    rw [List.length_append, ← Nat.add_assoc]
    by_cases hbs : n + as.length + bs.length < 128
    · rw [if_pos hbs] at hyn ⊢
      rw [List.flatMap_append]
      exact hxn.bind hyn
    · rw [if_neg hbs] at hyn ⊢
      rw [List.take_append, List.take_of_length_le (by omega), List.flatMap_append,
        List.append_assoc, Nat.sub_sub]
      exact hxn.bind hyn
  · rw [if_neg has] at hxn
    rw [if_neg (by rw [List.length_append]; omega), List.take_append_of_le_length (by omega)]
    have hdone := hxn.bind (f := fun flow => match flow with
      | .go found => y found
      | .returned => pure .returned) (emits_pure Flow.returned)
    rwa [List.append_nil] at hdone

/-- What goes on as another part, without printing before, scans what that part does. -/
theorem Scans.of_emits {x y : U32 → Code Flow} {es : List Entry} (hy : Scans y es)
    (h : ∀ {found flow text}, Emits (y found) flow text → Emits (x found) flow text) :
    Scans x es := by
  intro n hn
  have hrest := hy n hn
  split_ifs at hrest ⊢
  · exact h hrest
  · exact h hrest

/-- A line, and then the rest if it was not the 128th. -/
theorem Scans.cons {x y : U32 → Code Flow} {e : Entry} {es : List Entry} (hy : Scans y es)
    (h : ∀ {found flow text}, Emits (if 128 ≤ found + 1 then do
        serialWrite limitText
        serialWrite completeText
        pure .returned
      else y (found + 1)) flow text → Emits (x found) flow (e.line ++ text)) :
    Scans x (e :: es) := by
  intro n hn
  have hnext : BitVec.ofNat 32 n + 1 = BitVec.ofNat 32 (n + 1) := (BitVec.ofNat_add n 1).symm
  have hcount : 128 ≤ BitVec.ofNat 32 n + 1 ↔ 128 ≤ n + 1 := by
    rw [hnext, BitVec.le_def, BitVec.toNat_ofNat, Nat.mod_eq_of_lt (by omega)]
    rfl
  by_cases hlimit : 128 ≤ n + 1
  · have hone : (e :: es).take (128 - n) = [e] := by
      rw [show 128 - n = 1 by omega]
      rfl
    rw [if_neg (by rw [List.length_cons]; omega), hone, List.flatMap_singleton]
    refine h ?_
    rw [if_pos (hcount.2 hlimit)]
    have htexts := (emits_serialWrite limitText).bind (f := fun _ => do
      serialWrite completeText
      pure Flow.returned) ((emits_serialWrite completeText).bind (emits_pure Flow.returned))
    rwa [List.append_nil] at htexts
  · have hrest := hy (n + 1) (by omega)
    have hlen : n + (e :: es).length = n + 1 + es.length := by
      rw [List.length_cons]
      omega
    rw [hlen]
    split_ifs at hrest ⊢
    · rw [List.flatMap_cons]
      exact h (by rwa [if_neg (hcount.not.2 hlimit), hnext])
    · rw [show 128 - n = (128 - (n + 1)) + 1 by omega, List.take_succ_cons, List.flatMap_cons,
        List.append_assoc]
      exact h (by rwa [if_neg (hcount.not.2 hlimit), hnext])

section Loops

variable (space : ConfigSpace)

/-- A function that is not there is passed over. -/
theorem scans_absent {l : Location} (habsent : present space l = false) {fs : List U8}
    {es : List Entry} (hrest : Scans (scanFunctions space l.bus (l.device.setWidth 8) fs) es) :
    Scans (scanFunctions space l.bus (l.device.setWidth 8) (l.function.setWidth 8 :: fs)) es := by
  have hvendor : vendorAt space l = 0xFFFF := by simpa [present] using habsent
  refine hrest.of_emits fun h => ?_
  rw [scanFunctions]
  refine (emits_vendor space l).bind_silent ?_
  rw [if_pos hvendor]
  exact h

/-- A function that is there is printed, and is the last of the device or not. -/
theorem scans_present {l : Location} (hpresent : present space l = true) {fs : List U8}
    {es : List Entry} (hrest : if l.function = 0 ∧ headerTypeAt space l &&& 0x80 = 0 then es = []
      else Scans (scanFunctions space l.bus (l.device.setWidth 8) fs) es) :
    Scans (scanFunctions space l.bus (l.device.setWidth 8) (l.function.setWidth 8 :: fs))
      (entryAt space l :: es) := by
  have hvendor : vendorAt space l ≠ 0xFFFF := by simpa [present] using hpresent
  have hzero : (l.function.setWidth 8 : U8) = 0 ↔ l.function = 0 := by
    have hall : ∀ f : BitVec 3, (f.setWidth 8 : U8) = 0 ↔ f = 0 := by decide
    exact hall _
  -- what comes after the line
  have hlater : Scans (fun found =>
      if (l.function.setWidth 8 : U8) = 0 then do
        let headerType :=
          ((← l.code fun b d f => pciConfigRead32 space b d f 0x0C) >>> 16).setWidth 8
        if headerType &&& (0x80 : U8) = 0 then pure (.go found)
        else scanFunctions space l.bus (l.device.setWidth 8) fs found
      else scanFunctions space l.bus (l.device.setWidth 8) fs found) es := by
    by_cases hfirst : l.function = 0
    · simp only [if_pos (hzero.2 hfirst)]
      by_cases hheader : headerTypeAt space l &&& 0x80 = 0
      · rw [if_pos ⟨hfirst, hheader⟩] at hrest
        subst hrest
        refine scans_nil.of_emits fun h => (emits_read32 space l 0x0C).bind_silent ?_
        change Emits (if headerTypeAt space l &&& 0x80 = 0 then _ else _) _ _
        rwa [if_pos hheader]
      · rw [if_neg fun hand => hheader hand.2] at hrest
        refine hrest.of_emits fun h => (emits_read32 space l 0x0C).bind_silent ?_
        change Emits (if headerTypeAt space l &&& 0x80 = 0 then _ else _) _ _
        rwa [if_neg hheader]
    · rw [if_neg fun hand => hfirst hand.1] at hrest
      simpa only [if_neg (hzero.not.2 hfirst)] using hrest
  refine hlater.cons fun h => ?_
  rw [scanFunctions]
  refine (emits_vendor space l).bind_silent ?_
  rw [if_neg hvendor]
  exact (emits_id space l).bind_silent <| (emits_class space l).bind_silent <|
    (emits_subclass space l).bind_silent <| (emits_progIf space l).bind_silent <|
    (emits_printFunction (entryAt space l)).bind h

/-- The functions after the first one. -/
theorem scans_later (bus : U8) (device : BitVec 5) {fs : List (BitVec 3)} (hfs : ∀ f ∈ fs, f ≠ 0) :
    Scans (scanFunctions space bus (device.setWidth 8) (fs.map (BitVec.setWidth 8)))
      (((fs.map (Location.mk bus device)).filter (present space)).map (entryAt space)) := by
  induction fs with
  | nil => exact scans_nil
  | cons f fs ih =>
    have hrest := ih fun g hg => hfs g (List.mem_cons_of_mem _ hg)
    rw [List.map_cons, List.map_cons]
    by_cases hpresent : present space ⟨bus, device, f⟩ = true
    · rw [List.filter_cons_of_pos hpresent]
      refine scans_present space (l := ⟨bus, device, f⟩) hpresent ?_
      rw [if_neg fun h => hfs f List.mem_cons_self h.1]
      exact hrest
    · rw [List.filter_cons_of_neg hpresent]
      exact scans_absent space (l := ⟨bus, device, f⟩) (by simpa using hpresent) hrest

/-- A device has one function if bit 7 of its header type is clear. -/
theorem lone_iff {bus : U8} {device : BitVec 5} : lone space bus device = true ↔
    present space ⟨bus, device, 0⟩ = true ∧ headerTypeAt space ⟨bus, device, 0⟩ &&& 0x80 = 0 := by
  rw [lone, Bool.and_eq_true, beq_iff_eq]

/-- The functions of a device but the first. -/
def laterFunctions : List (BitVec 3) := [1, 2, 3, 4, 5, 6, 7]

/-- The functions of a device. -/
theorem scans_functions (bus : U8) (device : BitVec 5) :
    Scans (scanFunctions space bus (device.setWidth 8) (indices 0 8))
    (listed space (functionsOf bus device)) := by
  have hlater := scans_later space bus device (by decide : ∀ f ∈ laterFunctions, f ≠ 0)
  have hcode : indices (0 : U8) 8 = 0 :: laterFunctions.map (BitVec.setWidth 8) := rfl
  have hplaces : functionsOf bus device =
      ⟨bus, device, 0⟩ :: laterFunctions.map (Location.mk bus device) := rfl
  have hother : ∀ l ∈ laterFunctions.map (Location.mk bus device),
      visible space l = (present space l && !lone space bus device) := by
    intro l hl
    obtain ⟨f, hf, rfl⟩ := List.mem_map.1 hl
    have hne : ∀ f ∈ laterFunctions, (f == 0) = false := by decide
    rw [visible, hne f hf, Bool.false_or]
  have hall : ¬ lone space bus device = true →
      (laterFunctions.map (Location.mk bus device)).filter (visible space) =
        (laterFunctions.map (Location.mk bus device)).filter (present space) :=
    fun hlone => List.filter_congr fun l hl => by simp [hother l hl, hlone]
  have hfirst : visible space ⟨bus, device, 0⟩ = present space ⟨bus, device, 0⟩ := by simp [visible]
  rw [hcode, hplaces, listed]
  by_cases hpresent : present space ⟨bus, device, 0⟩ = true
  · rw [List.filter_cons_of_pos (hfirst.trans hpresent), List.map_cons]
    refine scans_present space (l := ⟨bus, device, 0⟩) hpresent ?_
    by_cases hheader : headerTypeAt space ⟨bus, device, 0⟩ &&& 0x80 = 0
    · have hlone := (lone_iff space).2 ⟨hpresent, hheader⟩
      rw [if_pos ⟨rfl, hheader⟩, List.filter_eq_nil_iff.2 fun l hl => by simp [hother l hl, hlone]]
      rfl
    · rw [if_neg fun h => hheader h.2, hall fun hlone => hheader ((lone_iff space).1 hlone).2]
      exact hlater
  · rw [List.filter_cons_of_neg (by rwa [hfirst]), hall fun hlone =>
      hpresent ((lone_iff space).1 hlone).1]
    exact scans_absent space (l := ⟨bus, device, 0⟩) (by simpa using hpresent) hlater

theorem listed_append (as bs : List Location) :
    listed space (as ++ bs) = listed space as ++ listed space bs := by
  rw [listed, List.filter_append, List.map_append]
  rfl

/-- The devices of a bus. -/
theorem scans_devices (bus : U8) (ds : List (BitVec 5)) :
    Scans (scanDevices space bus (ds.map (BitVec.setWidth 8)))
    (listed space (ds.flatMap (functionsOf bus))) := by
  induction ds with
  | nil => exact scans_nil
  | cons d ds ih =>
    rw [List.flatMap_cons, listed_append]
    exact (scans_functions space bus d).seq ih

/-- The buses. -/
theorem scans_buses (bs : List U8) :
    Scans (scanBuses space (bs.map (BitVec.setWidth 16)))
    (listed space (bs.flatMap devicesOf)) := by
  induction bs with
  | nil => exact scans_nil
  | cons b bs ih =>
    have hbus : ((b.setWidth 16 : U16).setWidth 8 : U8) = b := by simp
    have hcode : indices (0 : U8) 32 =
        ((List.range 32).map (BitVec.ofNat 5)).map (BitVec.setWidth 8) := rfl
    have hdevices := scans_devices space b ((List.range 32).map (BitVec.ofNat 5))
    rw [List.flatMap_map, ← hcode] at hdevices
    rw [List.flatMap_cons, listed_append]
    refine Scans.seq (x := scanDevices space ((b.setWidth 16 : U16).setWidth 8)
      (indices 0 32)) ?_ ih
    rw [hbus]
    exact hdevices

end Loops

/-! ### The places -/

/-- The three loops reach every place. -/
theorem mem_locations (l : Location) : l ∈ locations := by
  obtain ⟨bus, device, function⟩ := l
  refine List.mem_flatMap.2 ⟨bus.toNat, List.mem_range.2 bus.isLt, List.mem_flatMap.2 ⟨device.toNat,
    List.mem_range.2 device.isLt,
    List.mem_map.2 ⟨function.toNat, List.mem_range.2 function.isLt, ?_⟩⟩⟩
  simp

/-- They reach it once. -/
theorem nodup_locations : locations.Nodup := by
  have hofNat : ∀ {w i j : ℕ}, i < 2 ^ w → j < 2 ^ w → BitVec.ofNat w i = BitVec.ofNat w j →
      i = j := by
    intro w i j hi hj h
    have hnat := congrArg BitVec.toNat h
    rwa [BitVec.toNat_ofNat, BitVec.toNat_ofNat, Nat.mod_eq_of_lt hi, Nat.mod_eq_of_lt hj] at hnat
  have hfunctions : ∀ bus device, (functionsOf bus device).Nodup := fun bus device =>
    List.nodup_range.map_on fun i hi j hj h =>
      hofNat (List.mem_range.1 hi) (List.mem_range.1 hj) (Location.mk.inj h).2.2
  have hdevice : ∀ {bus device l}, l ∈ functionsOf bus device → l.bus = bus ∧
      l.device = device := by
    intro bus device l hl
    obtain ⟨f, -, rfl⟩ := List.mem_map.1 hl
    exact ⟨rfl, rfl⟩
  have hbus : ∀ {bus l}, l ∈ devicesOf bus → l.bus = bus := by
    intro bus l hl
    obtain ⟨d, -, hl⟩ := List.mem_flatMap.1 hl
    exact (hdevice hl).1
  have hdevices : ∀ bus, (devicesOf bus).Nodup := by
    intro bus
    refine List.nodup_flatMap.2 ⟨fun d _ => hfunctions bus _, ?_⟩
    refine List.nodup_range.pairwise_of_forall_ne fun i hi j hj hne l hli hlj => hne ?_
    exact hofNat (List.mem_range.1 hi) (List.mem_range.1 hj)
      ((hdevice hli).2.symm.trans (hdevice hlj).2)
  refine List.nodup_flatMap.2 ⟨fun b _ => hdevices _, ?_⟩
  refine List.nodup_range.pairwise_of_forall_ne fun i hi j hj hne l hli hlj => hne ?_
  exact hofNat (List.mem_range.1 hi) (List.mem_range.1 hj) ((hbus hli).symm.trans (hbus hlj))

/-- **The scan prints the inventory.**  Whatever is on the buses, `pci_enumerate` prints one line
for each of the first 128 functions to be listed, in the order of their places, and says so if the
limit was reached. Among the functions to be listed is every one that is there, except those behind
a function 0 that claims to be the only one; and none is listed twice. -/
theorem pci_enumerate_reports (space : ConfigSpace) :
    (∀ h, ∃ address, (pciEnumerate space).run h = ((), ⟨address, h.serial ++ report space⟩)) ∧
      (∀ l, entryAt space l ∈ found space ↔ visible space l = true) ∧ (found space).Nodup := by
  have hentry : Function.Injective (entryAt space) := fun l l' h => (Entry.mk.inj h).1
  refine ⟨?_, fun l => ?_, ?_⟩
  · have hcode : indices (0 : U16) 256 =
        ((List.range 256).map (BitVec.ofNat 8)).map (BitVec.setWidth 16) := by
      rw [indices, List.map_map, List.range_eq_range']
      refine List.map_congr_left fun i hi => BitVec.eq_of_toNat_eq ?_
      have hlt : i < 256 := by simpa using hi
      simp only [Function.comp_apply, BitVec.toNat_setWidth, BitVec.toNat_ofNat]
      omega
    have hscan := scans_buses space ((List.range 256).map (BitVec.ofNat 8))
    rw [List.flatMap_map, ← hcode] at hscan
    have hzero := hscan 0 (by decide)
    change if 0 + (found space).length < 128 then _ else _ at hzero
    rw [Nat.zero_add] at hzero
    change Emits (pciEnumerate space) () (report space)
    rw [pciEnumerate, report, inventory]
    refine (emits_serialWrite scanText).bind ?_
    by_cases hfew : (found space).length < 128
    · rw [if_pos hfew] at hzero
      rw [List.take_of_length_le hfew.le, if_neg (Nat.not_le.2 hfew), List.nil_append]
      exact hzero.bind (emits_serialWrite completeText)
    · rw [if_neg hfew] at hzero
      rw [if_pos (Nat.not_lt.1 hfew)]
      have hdone := hzero.bind (f := fun flow => match flow with
        | .go _ => serialWrite completeText
        | .returned => pure ()) (emits_pure ())
      rwa [List.append_nil] at hdone
  · rw [found, listed, List.mem_map_of_injective hentry, List.mem_filter]
    exact and_iff_right (mem_locations l)
  · exact (nodup_locations.filter _).map hentry

/-! ### The text is read back -/

/-- A line tells its entry, and where it ends. -/
theorem line_append_inj {e e' : Entry} {s s' : List Char} (h : e.line ++ s = e'.line ++ s') :
    e = e' ∧ s = s' := by
  have hlength : ∀ e : Entry, e.front.length = 66 := fun e => by simp [Entry.front]
  simp only [Entry.line, List.append_assoc] at h
  obtain ⟨hfront, hrest⟩ := List.append_inj h ((hlength e).trans (hlength e').symm)
  have he : e = e' := by
    obtain ⟨⟨bus, device, function⟩, vendor, id, classCode, subclass, progIf⟩ := e
    obtain ⟨⟨bus', device', function'⟩, vendor', id', classCode', subclass', progIf'⟩ := e'
    obtain ⟨hbus, h⟩ := List.append_inj (List.append_cancel_left hfront) (by simp)
    obtain ⟨hdevice, h⟩ := List.append_inj (List.append_cancel_left h) (by simp)
    obtain ⟨hfunction, h⟩ := List.append_inj (List.append_cancel_left h) (by simp)
    obtain ⟨hvendor, h⟩ := List.append_inj (List.append_cancel_left h) (by simp)
    obtain ⟨hid, h⟩ := List.append_inj (List.append_cancel_left h) (by simp)
    obtain ⟨hclass, h⟩ := List.append_inj (List.append_cancel_left h) (by simp)
    obtain ⟨hsubclass, h⟩ := List.append_inj (List.append_cancel_left h) (by simp)
    obtain ⟨hprogIf, -⟩ := List.append_inj (List.append_cancel_left h) (by simp)
    have hbyte : ∀ v u : U8, fixed v 2 = fixed u 2 → v = u :=
      fun v u => fixed_injective v (k := 2) rfl (by decide)
    have hword : ∀ v u : U16, fixed v 4 = fixed u 4 → v = u :=
      fun v u => fixed_injective v (k := 4) rfl (by decide)
    have hwide : ∀ d d' : BitVec 5, (d.setWidth 8 : U8) = d'.setWidth 8 → d = d' := by decide
    have hdigit : ∀ f f' : BitVec 3, [digit f.toNat] = [digit f'.toNat] → f = f' := by decide
    obtain rfl := hbyte _ _ hbus
    obtain rfl := hwide _ _ (hbyte _ _ hdevice)
    obtain rfl := hdigit _ _ hfunction
    obtain rfl := hword _ _ hvendor
    obtain rfl := hword _ _ hid
    obtain rfl := hbyte _ _ hclass
    obtain rfl := hbyte _ _ hsubclass
    obtain rfl := hbyte _ _ hprogIf
    rfl
  subst he
  exact ⟨rfl, List.append_cancel_left (List.append_cancel_left hrest)⟩

/-- Lines before a text that starts with `P`. -/
theorem lines_append_inj {es es' : List Entry} {s s' : List Char} (hs : s.head? = some 'P')
    (hs' : s'.head? = some 'P') (h : es.flatMap Entry.line ++ s = es'.flatMap Entry.line ++ s') :
    es = es' := by
  have hline : ∀ (e : Entry) t, (e.line ++ t).head? = some '0' := fun e t => rfl
  induction es generalizing es' with
  | nil =>
    cases es' with
    | nil => rfl
    | cons e' es' =>
      rw [List.flatMap_nil, List.nil_append, List.flatMap_cons, List.append_assoc] at h
      rw [h, hline] at hs
      exact absurd hs (by decide)
  | cons e es ih =>
    cases es' with
    | nil =>
      rw [List.flatMap_nil, List.nil_append, List.flatMap_cons, List.append_assoc] at h
      rw [← h, hline] at hs'
      exact absurd hs' (by decide)
    | cons e' es' =>
      rw [List.flatMap_cons, List.flatMap_cons, List.append_assoc, List.append_assoc] at h
      obtain ⟨rfl, hrest⟩ := line_append_inj h
      rw [ih hrest]

/-- **The inventory can be read back from the text.** -/
theorem pci_report_injective (space space' : ConfigSpace) :
    report space = report space' ↔ inventory space = inventory space' := by
  have htail : ∀ space, ((if 128 ≤ (found space).length then limitText else []) ++
      completeText).head? = some 'P' := by
    intro space
    split_ifs <;> rfl
  have hlimit : ∀ space, 128 ≤ (found space).length ↔ (inventory space).length = 128 := by
    intro space
    rw [inventory, List.length_take]
    omega
  constructor
  · intro h
    exact lines_append_inj (htail space) (htail space') (List.append_cancel_left h)
  · intro h
    rw [report, report]
    simp only [hlimit, h]

end SuiraBox.Pci
