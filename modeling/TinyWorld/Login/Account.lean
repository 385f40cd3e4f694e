import TinyWorld.Lib.SqlLiteral

/-! # Accounts

The queries of the login server. What a client sends stands in them between quotes as
it has been sent. -/
namespace TinyWorld.Login
open Lib.SqlLiteral

/-- `deviceType` as it is written to a stream. -/
structure RegisterWithDeviceIDRequest where
  deviceType : Text
  deviceId : Text

structure LoginWithNamePasswdReq where
  username : Text
  passwd : Text

namespace RegisterWithDeviceIDRequest

def selectText (proto : RegisterWithDeviceIDRequest) : Text :=
  "SELECT * FROM account WHERE `device_id`='".toList ++ proto.deviceId ++ "'".toList

def insertText (proto : RegisterWithDeviceIDRequest) : Text :=
  "INSERT INTO account(device_type, device_id) VALUES('".toList ++ proto.deviceType ++
    "', '".toList ++ proto.deviceId ++ "')".toList

end RegisterWithDeviceIDRequest

/-- With the names that the server gives to a new account. -/
def updateText (insertId : UInt64) : Text :=
  "UPDATE account SET username='".toList ++
  ("#tmpname#".toList ++ Nat.toDigits 10 insertId.toNat) ++
    "', passwd='".toList ++ ("#tmppasswd#".toList ++ Nat.toDigits 10 insertId.toNat) ++
    "' WHERE accid=".toList ++ Nat.toDigits 10 insertId.toUInt32.toNat

/-- The texts that are sent to MySQL. `found` is the number of rows that the first one selects, and
`inserted` the id of the new row; none if the query throws. -/
def onRegisterWithDeviceID (proto : RegisterWithDeviceIDRequest) (found : Option Nat)
    (inserted : Option UInt64) : List Text :=
  proto.selectText :: match found with
    | none => []
    | some 1 => []
    | some _ => proto.insertText :: match inserted with
      | none => []
      | some insertId => [updateText insertId]

def onLoginWithNamePasswd (proto : LoginWithNamePasswdReq) : List Text :=
  ["SELECT * FROM account WHERE `username`='".toList ++ proto.username ++
    "' AND `passwd`='".toList ++ proto.passwd ++ "'".toList]

/-! ## What they are meant to be -/

def RegisterWithDeviceIDRequest.select (proto : RegisterWithDeviceIDRequest) : Query where
  parts := [("SELECT * FROM account WHERE `device_id`=".toList, proto.deviceId)]
  last := []

def RegisterWithDeviceIDRequest.insert (proto : RegisterWithDeviceIDRequest) : Query where
  parts := [("INSERT INTO account(device_type, device_id) VALUES(".toList, proto.deviceType),
    (", ".toList, proto.deviceId)]
  last := ")".toList

def update (insertId : UInt64) : Query where
  parts := [
    ("UPDATE account SET username=".toList, "#tmpname#".toList ++ Nat.toDigits 10 insertId.toNat),
    (", passwd=".toList, "#tmppasswd#".toList ++ Nat.toDigits 10 insertId.toNat)]
  last := " WHERE accid=".toList ++ Nat.toDigits 10 insertId.toUInt32.toNat

def LoginWithNamePasswdReq.select (proto : LoginWithNamePasswdReq) : Query where
  parts := [("SELECT * FROM account WHERE `username`=".toList, proto.username),
    (" AND `passwd`=".toList, proto.passwd)]
  last := []

/-- The queries of one registration, in the same order. -/
def registration (proto : RegisterWithDeviceIDRequest) (found : Option Nat)
    (inserted : Option UInt64) : List Query :=
  proto.select :: match found with
    | none => []
    | some 1 => []
    | some _ => proto.insert :: match inserted with
      | none => []
      | some insertId => [update insertId]

/-- Each text is lexed to the tokens of its query. -/
def KeepsShape (texts : List Text) (queries : List Query) : Prop :=
  texts.map lex = queries.map fun q => some q.tokens

/-! ## The texts as queries -/

theorem select_written (proto : RegisterWithDeviceIDRequest) :
    proto.selectText = proto.select.written := by
  have hpre : "SELECT * FROM account WHERE `device_id`='".toList =
      "SELECT * FROM account WHERE `device_id`=".toList ++ ['\''] := rfl
  have hlast : "'".toList = ['\''] := rfl
  unfold RegisterWithDeviceIDRequest.selectText RegisterWithDeviceIDRequest.select Query.written
  simp only [List.foldr_cons, List.foldr_nil, hpre, hlast, List.append_assoc, List.cons_append,
    List.nil_append]

theorem insert_written (proto : RegisterWithDeviceIDRequest) :
    proto.insertText = proto.insert.written := by
  have hpre : "INSERT INTO account(device_type, device_id) VALUES('".toList =
      "INSERT INTO account(device_type, device_id) VALUES(".toList ++ ['\''] := rfl
  have hmid : "', '".toList = '\'' :: (", ".toList ++ ['\'']) := rfl
  have hlast : "')".toList = '\'' :: ")".toList := rfl
  unfold RegisterWithDeviceIDRequest.insertText RegisterWithDeviceIDRequest.insert Query.written
  simp only [List.foldr_cons, List.foldr_nil, hpre, hmid, hlast, List.append_assoc,
    List.cons_append, List.nil_append]

theorem update_written (insertId : UInt64) : updateText insertId = (update insertId).written := by
  have hpre : "UPDATE account SET username='".toList =
      "UPDATE account SET username=".toList ++ ['\''] := rfl
  have hmid : "', passwd='".toList = '\'' :: (", passwd=".toList ++ ['\'']) := rfl
  have hlast : "' WHERE accid=".toList = '\'' :: " WHERE accid=".toList := rfl
  unfold updateText update Query.written
  simp only [List.foldr_cons, List.foldr_nil, hpre, hmid, hlast, List.append_assoc,
    List.cons_append, List.nil_append]

theorem login_written (proto : LoginWithNamePasswdReq) :
    onLoginWithNamePasswd proto = [proto.select.written] := by
  have hpre : "SELECT * FROM account WHERE `username`='".toList =
      "SELECT * FROM account WHERE `username`=".toList ++ ['\''] := rfl
  have hmid : "' AND `passwd`='".toList = '\'' :: (" AND `passwd`=".toList ++ ['\'']) := rfl
  have hlast : "'".toList = ['\''] := rfl
  unfold onLoginWithNamePasswd LoginWithNamePasswdReq.select Query.written
  simp only [List.foldr_cons, List.foldr_nil, hpre, hmid, hlast, List.append_assoc,
    List.cons_append, List.nil_append]

theorem select_wellFormed (proto : RegisterWithDeviceIDRequest) : proto.select.WellFormed where
  parts := by simp [RegisterWithDeviceIDRequest.select]
  last := by simp [RegisterWithDeviceIDRequest.select]
  between := by simp [RegisterWithDeviceIDRequest.select]

theorem insert_wellFormed (proto : RegisterWithDeviceIDRequest) : proto.insert.WellFormed where
  parts := by simp [RegisterWithDeviceIDRequest.insert]
  last := by simp [RegisterWithDeviceIDRequest.insert]
  between := by simp [RegisterWithDeviceIDRequest.insert]

theorem login_wellFormed (proto : LoginWithNamePasswdReq) : proto.select.WellFormed where
  parts := by simp [LoginWithNamePasswdReq.select]
  last := by simp [LoginWithNamePasswdReq.select]
  between := by simp [LoginWithNamePasswdReq.select]

theorem plain_of_forall {text : Text} (h : ∀ c ∈ text, c ≠ '\'' ∧ c ≠ '\\') : Plain text := by
  induction text with
  | nil => trivial
  | cons c text ih =>
    rw [List.forall_mem_cons] at h
    exact ⟨h.1.1, fun hc => absurd hc h.1.2, ih h.2⟩

theorem digit_ne {n : Nat} {c : Char} (hc : c ∈ Nat.toDigits 10 n) : c ≠ '\'' ∧ c ≠ '\\' := by
  have hdigit : c.isDigit = true := Nat.isDigit_of_mem_toDigits (by decide) (by decide) hc
  constructor <;> rintro rfl <;> exact absurd hdigit (by decide)

/-- What the server puts in itself is plain. -/
theorem update_plain (insertId : UInt64) : ∀ p ∈ (update insertId).parts, Plain p.2 := by
  have hname : ∀ pre : Text, (∀ c ∈ pre, c ≠ '\'' ∧ c ≠ '\\') →
      Plain (pre ++ Nat.toDigits 10 insertId.toNat) := by
    intro pre hpre
    refine plain_of_forall fun c hc => ?_
    rcases List.mem_append.mp hc with hc | hc
    · exact hpre c hc
    · exact digit_ne hc
  refine List.forall_mem_cons.mpr ⟨hname _ (by simp), List.forall_mem_singleton.mpr ?_⟩
  exact hname _ (by simp)

theorem update_wellFormed (insertId : UInt64) : (update insertId).WellFormed where
  parts := by simp [update]
  last h := by
    rcases List.mem_append.mp h with h | h
    · exact absurd h (by decide)
    · exact (digit_ne h).1 rfl
  between := by simp [update]

/-! ## What clients may send -/

theorem login_keepsShape_iff (proto : LoginWithNamePasswdReq) :
    KeepsShape (onLoginWithNamePasswd proto) [proto.select] ↔
      Plain proto.username ∧ Plain proto.passwd := by
  rw [login_written, KeepsShape, List.map_singleton, List.map_singleton, List.singleton_inj,
    Query.lex_iff (login_wellFormed proto)]
  simp [LoginWithNamePasswdReq.select]

theorem select_iff (proto : RegisterWithDeviceIDRequest) :
    lex proto.selectText = some proto.select.tokens ↔ Plain proto.deviceId := by
  rw [select_written, Query.lex_iff (select_wellFormed proto)]
  simp [RegisterWithDeviceIDRequest.select]

theorem insert_iff (proto : RegisterWithDeviceIDRequest) :
    lex proto.insertText = some proto.insert.tokens ↔
    Plain proto.deviceType ∧ Plain proto.deviceId := by
  rw [insert_written, Query.lex_iff (insert_wellFormed proto)]
  simp [RegisterWithDeviceIDRequest.insert]

theorem update_lex (insertId : UInt64) :
    lex (updateText insertId) = some (update insertId).tokens := by
  rw [update_written, Query.lex_iff (update_wellFormed insertId)]
  exact update_plain insertId

theorem keepsShape_cons {text : Text} {q : Query} {texts : List Text} {qs : List Query} :
    KeepsShape (text :: texts) (q :: qs) ↔ lex text = some q.tokens ∧ KeepsShape texts qs := by
  simp [KeepsShape]

/-- The device type is sent to MySQL only if the device is not found. -/
theorem registration_keepsShape_iff (proto : RegisterWithDeviceIDRequest) (found : Option Nat)
    (inserted : Option UInt64) :
    KeepsShape (onRegisterWithDeviceID proto found inserted) (registration proto found inserted) ↔
      Plain proto.deviceId ∧ (found = none ∨ found = some 1 ∨ Plain proto.deviceType) := by
  unfold onRegisterWithDeviceID registration
  rw [keepsShape_cons, select_iff]
  refine and_congr_right fun hid => ?_
  split
  · simp [KeepsShape]
  · simp [KeepsShape]
  · rename_i n hn
    rw [keepsShape_cons, insert_iff]
    have hrest : ∀ inserted : Option UInt64, KeepsShape
        (match inserted with
          | none => []
          | some insertId => [updateText insertId])
        (match inserted with
          | none => []
          | some insertId => [update insertId]) := by
      intro inserted
      cases inserted with
      | none => rfl
      | some insertId => exact keepsShape_cons.mpr ⟨update_lex insertId, rfl⟩
    have hone : ¬n = 1 := fun h => hn (by rw [h])
    simp [hrest inserted, hid, hone]

/-- **The queries are what they are meant to be for plain strings only**: without quotes, and with
no backslash but in front of a wildcard. -/
theorem account_queries_iff (login : LoginWithNamePasswdReq) (device : RegisterWithDeviceIDRequest)
    (found : Option Nat) (inserted : Option UInt64) :
    (KeepsShape (onLoginWithNamePasswd login) [login.select] ↔
      Plain login.username ∧ Plain login.passwd) ∧
    (KeepsShape (onRegisterWithDeviceID device found inserted)
      (registration device found inserted) ↔
      Plain device.deviceId ∧ (found = none ∨ found = some 1 ∨ Plain device.deviceType)) :=
  ⟨login_keepsShape_iff login, registration_keepsShape_iff device found inserted⟩

/-- A password that makes the condition true for every row. -/
theorem login_injected :
    ¬∀ login : LoginWithNamePasswdReq, KeepsShape (onLoginWithNamePasswd login) [login.select] := by
  intro h
  have hplain := (login_keepsShape_iff ⟨"x".toList, "' OR '1'='1".toList⟩).mp (h _)
  exact absurd hplain.2 (by decide)

end TinyWorld.Login
