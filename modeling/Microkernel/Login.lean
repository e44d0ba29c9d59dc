/-
# Accounts

The table of users in `src/login.c` and who is logged in.  A string is the list of its bytes before the
terminator; what `login_prompt` reads from the keyboard are its arguments.
-/
import Microkernel.Machines
import Microkernel.SlotTable

namespace Microkernel

/-- `MAX_USERS`. -/
abbrev maxUsers : ℕ := 8

/-- `USER_NAME_LEN`. -/
def userNameLen : ℕ := 16

/-- An entry of `users`: the last byte of the name is never written. -/
structure User where
  name : List UInt8
  passHash : UInt32
  active : Bool
  isAdmin : Bool
  name_le : name.length ≤ userNameLen - 1

/-- The static variables of `login.c`. -/
structure Login where
  users : Fin maxUsers → User
  currentUser : List UInt8
  loggedIn : Bool

/-- `hash_pass`. -/
def hashPass (s : List UInt8) : UInt32 := s.foldl (fun h c => (h <<< 5) + h + c.toUInt32) 5381

/-- The name `"root"`. -/
def rootName : List UInt8 := [0x72, 0x6F, 0x6F, 0x74]

/-- The name `"user"`. -/
def userName : List UInt8 := [0x75, 0x73, 0x65, 0x72]

/-- The name `"guest"`. -/
def guestName : List UInt8 := [0x67, 0x75, 0x65, 0x73, 0x74]

theorem rootName_le : rootName.length ≤ userNameLen - 1 := by decide

theorem userName_le : userName.length ≤ userNameLen - 1 := by decide

theorem guestName_le : guestName.length ≤ userNameLen - 1 := by decide

/-- A user after `memset`. -/
def User.zero : User := ⟨[], 0, false, false, Nat.zero_le _⟩

theorem rootSlot_lt : 0 < maxUsers := by decide

theorem userSlot_lt : 1 < maxUsers := by decide

theorem guestSlot_lt : 2 < maxUsers := by decide

/-- `login_init`. -/
def loginInit (l : Login) : Login :=
  { l with
    users := Function.update (Function.update (Function.update (fun _ => User.zero)
      ⟨0, rootSlot_lt⟩ ⟨rootName, hashPass rootName, true, true, rootName_le⟩)
      ⟨1, userSlot_lt⟩ ⟨userName, hashPass userName, true, false, userName_le⟩)
      ⟨2, guestSlot_lt⟩ ⟨guestName, hashPass [], true, false, guestName_le⟩ }

/-- The first active user with this name. -/
def Login.find (l : Login) (user : List UInt8) : Option (Fin maxUsers) :=
  (List.finRange maxUsers).find? fun i => (l.users i).active && decide ((l.users i).name = user)

/-- `login_authenticate`. -/
def loginAuthenticate (l : Login) (user pass : List UInt8) : Bool :=
  (List.finRange maxUsers).any fun i =>
    (l.users i).active && decide ((l.users i).name = user) && (l.users i).passHash == hashPass pass

/-- A new user; `strncpy` cuts the name. -/
def User.new (user pass : List UInt8) : User :=
  ⟨user.take (userNameLen - 1), hashPass pass, true, false, List.length_take_le _ _⟩

/-- `login_add_user`. -/
def loginAddUser (l : Login) (user pass : List UInt8) : Login × Bool :=
  match l.find user with
  | some _ => (l, false)
  | none =>
    match (List.finRange maxUsers).find? fun i => !(l.users i).active with
    | some i => ({ l with users := Function.update l.users i (User.new user pass) }, true)
    | none => (l, false)

/-- `login_del_user`. -/
def loginDelUser (l : Login) (user : List UInt8) : Login × Bool :=
  if user = rootName then (l, false)
  else
    match l.find user with
    | some i =>
      ({ l with users := Function.update l.users i { l.users i with active := false } }, true)
    | none => (l, false)

/-- `login_change_pass`. -/
def loginChangePass (l : Login) (user oldPass newPass : List UInt8) : Login × Bool :=
  match l.find user with
  | some i =>
    if (l.users i).passHash = hashPass oldPass then
      ({ l with
        users := Function.update l.users i { l.users i with passHash := hashPass newPass } }, true)
    else (l, false)
  | none => (l, false)

/-- `login_set_user`. -/
def loginSetUser (l : Login) (user : List UInt8) : Login :=
  { l with currentUser := user.take (userNameLen - 1), loggedIn := true }

/-- `login_logout`. -/
def loginLogout (l : Login) : Login := { l with currentUser := [], loggedIn := false }

/-- The loop of `login_prompt` over the names and passwords that are typed. -/
def loginLoop (l : Login) : ℕ → List (List UInt8 × List UInt8) → Login × Bool
  | 0, _ => (l, false)
  | _, [] => (l, false)
  | n + 1, (user, pass) :: typed =>
    if loginAuthenticate l user pass then ({ l with currentUser := user, loggedIn := true }, true)
    else loginLoop l n typed

/-- `login_prompt`: there are three attempts. -/
def loginPrompt (l : Login) (typed : List (List UInt8 × List UInt8)) : Login × Bool :=
  loginLoop l 3 typed

/-! ## The table -/

/-- What an account has behind its name: the hash of the password, and if it is an administrator. -/
abbrev Account := UInt32 × Bool

/-- The account of an active user. -/
def User.entry (u : User) : Option (List UInt8 × Account) :=
  if u.active then some (u.name, u.passHash, u.isAdmin) else none

/-- The accounts of the active users. -/
def accountView (l : Login) : SlotTable maxUsers (List UInt8) Account := fun i => (l.users i).entry

variable {l : Login} {user pass : List UInt8} {m : BoundedMap maxUsers (List UInt8) Account}
  {i : Fin maxUsers}

theorem accountView_isSome (l : Login) (i : Fin maxUsers) :
    (accountView l i).isSome = (l.users i).active := by
  unfold accountView User.entry
  cases (l.users i).active <;> rfl

theorem accountView_eq_some {name : List UInt8} {hash : UInt32} {admin : Bool} :
    accountView l i = some (name, hash, admin) ↔ (l.users i).active = true ∧
      (l.users i).name = name ∧ (l.users i).passHash = hash ∧ (l.users i).isAdmin = admin := by
  unfold accountView User.entry
  split_ifs with hactive
  · simp [hactive]
  · simp [hactive]

theorem loginFind_eq (l : Login) (user : List UInt8) : l.find user = (accountView l).find user := by
  unfold Login.find SlotTable.find
  congr 1
  funext i
  unfold accountView User.entry
  cases (l.users i).active
  · rfl
  · rw [if_pos rfl, Bool.true_and, Option.any_some]

theorem loginFree_eq (l : Login) :
    ((List.finRange maxUsers).find? fun i => !(l.users i).active) = (accountView l).free := by
  unfold SlotTable.free
  congr 1
  funext i
  rw [← accountView_isSome, Option.not_isSome]

/-- A change of one user is a change of one slot. -/
theorem accountView_update (l : Login) (i : Fin maxUsers) (u : User) :
    accountView { l with users := Function.update l.users i u } =
      Function.update (accountView l) i u.entry := by
  funext j
  show (Function.update l.users i u j).entry = Function.update (accountView l) i u.entry j
  by_cases hj : j = i
  · rw [hj, Function.update_self, Function.update_self]
  · rw [Function.update_of_ne hj, Function.update_of_ne hj]
    rfl

/-! ## The accounts as a map -/

/-- The accounts with the session. -/
structure Accounts where
  map : BoundedMap maxUsers (List UInt8) Account
  currentUser : List UInt8
  loggedIn : Bool

/-- The password of an account is right. -/
def Accounts.accepts (a : Accounts) (user pass : List UInt8) : Bool :=
  (a.map.lookup user).any fun account => account.1 == hashPass pass

namespace Accounts

/-- A new account is made when the name is not taken and there is room for it. -/
def addUser (a : Accounts) (user pass : List UInt8) : Accounts × Bool :=
  if user ∉ a.map.keys ∧ a.map.keys.card < maxUsers then
    ({ a with map := a.map.put user (hashPass pass, false) }, true)
  else (a, false)

/-- Every account but that of root can be deleted. -/
def delUser (a : Accounts) (user : List UInt8) : Accounts × Bool :=
  if user ≠ rootName ∧ user ∈ a.map.keys then ({ a with map := a.map.remove user }, true)
  else (a, false)

/-- Who knows the old password sets a new one. -/
def changePass (a : Accounts) (user oldPass newPass : List UInt8) : Accounts × Bool :=
  match a.map.lookup user with
  | some account =>
    if account.1 = hashPass oldPass then
      ({ a with map := a.map.put user (hashPass newPass, account.2) }, true)
    else (a, false)
  | none => (a, false)

/-- The first of three attempts that is right logs in. -/
def prompt (a : Accounts) (typed : List (List UInt8 × List UInt8)) : Accounts × Bool :=
  match (typed.take 3).find? fun up => a.accepts up.1 up.2 with
  | some up => ({ a with currentUser := up.1, loggedIn := true }, true)
  | none => (a, false)

end Accounts

/-- The table has the accounts, and the sessions agree. -/
structure Login.Has (l : Login) (a : Accounts) : Prop where
  accounts : (accountView l).Represents a.map
  currentUser : l.currentUser = a.currentUser
  loggedIn : l.loggedIn = a.loggedIn

/-- What the rest of the kernel calls. -/
inductive LoginOp where
  | addUser (user pass : List UInt8)
  | delUser (user : List UInt8)
  | changePass (user oldPass newPass : List UInt8)
  | setUser (user : List UInt8)
  | logout
  | prompt (typed : List (List UInt8 × List UInt8))

namespace LoginOp

/-- The calls, with their results. -/
def run (l : Login) : LoginOp → Login × Bool
  | .addUser user pass => loginAddUser l user pass
  | .delUser user => loginDelUser l user
  | .changePass user oldPass newPass => loginChangePass l user oldPass newPass
  | .setUser user => (loginSetUser l user, true)
  | .logout => (loginLogout l, true)
  | .prompt typed => loginPrompt l typed

/-- What they do to the accounts, and with which result. -/
def onAccounts (a : Accounts) : LoginOp → Accounts × Bool
  | .addUser user pass => a.addUser user pass
  | .delUser user => a.delUser user
  | .changePass user oldPass newPass => a.changePass user oldPass newPass
  | .setUser user => ({ a with currentUser := user.take (userNameLen - 1), loggedIn := true }, true)
  | .logout => ({ a with currentUser := [], loggedIn := false }, true)
  | .prompt typed => a.prompt typed

/-- A name that is added fits in its buffer. -/
def Fits : LoginOp → Prop
  | .addUser user _ => user.length ≤ userNameLen - 1
  | _ => True

end LoginOp

namespace Login.Has

variable {a : Accounts}

/-- **`login_authenticate`** accepts the passwords that the account has the hash of. -/
theorem authenticate_eq (h : l.Has a) (user pass : List UInt8) :
    loginAuthenticate l user pass = a.accepts user pass := by
  rw [Bool.eq_iff_iff]
  unfold loginAuthenticate Accounts.accepts
  rw [List.any_eq_true, Option.any_eq_true]
  constructor
  · rintro ⟨i, -, hi⟩
    simp only [Bool.and_eq_true, decide_eq_true_eq] at hi
    obtain ⟨⟨hactive, hname⟩, hhash⟩ := hi
    have hview := accountView_eq_some.mpr ⟨hactive, hname, rfl, rfl⟩
    exact ⟨((l.users i).passHash, (l.users i).isAdmin), (h.accounts.2 user _).mpr ⟨i, hview⟩, hhash⟩
  · rintro ⟨⟨hash, admin⟩, hlookup, hhash⟩
    obtain ⟨i, hi⟩ := (h.accounts.2 user _).mp hlookup
    obtain ⟨hactive, hname, hpass, -⟩ := accountView_eq_some.mp hi
    refine ⟨i, List.mem_finRange i, ?_⟩
    rw [hactive, hname, hpass, decide_eq_true rfl]
    exact hhash

theorem addUser (h : l.Has a) (hfits : user.length ≤ userNameLen - 1) (pass : List UInt8) :
    (loginAddUser l user pass).2 = (a.addUser user pass).2 ∧
      (loginAddUser l user pass).1.Has (a.addUser user pass).1 := by
  have hput := h.accounts.put user (hashPass pass, false)
  unfold SlotTable.put at hput
  unfold loginAddUser Accounts.addUser
  rw [loginFind_eq, loginFree_eq]
  cases hfind : (accountView l).find user with
  | some i =>
    obtain ⟨account, hi⟩ := SlotTable.find_eq_some hfind
    have hmem : user ∈ a.map.keys := h.accounts.mem_keys.mpr ⟨i, account, hi⟩
    dsimp only
    rw [if_neg fun hno => hno.1 hmem]
    exact ⟨rfl, h⟩
  | none =>
    have hmem : user ∉ a.map.keys := by
      intro hmem
      obtain ⟨i, account, hi⟩ := h.accounts.mem_keys.mp hmem
      exact SlotTable.find_eq_none.mp hfind i account hi
    rw [hfind] at hput
    cases hfree : (accountView l).free with
    | some i =>
      have hroom : a.map.keys.card < maxUsers := by
        by_contra hfull
        rw [h.accounts.free_eq_none_iff.mpr hfull] at hfree
        cases hfree
      rw [hfree] at hput
      dsimp only at hput ⊢
      rw [if_pos ⟨hmem, hroom⟩]
      refine ⟨rfl, ⟨?_, h.currentUser, h.loggedIn⟩⟩
      rw [accountView_update]
      have hentry : (User.new user pass).entry = some (user, hashPass pass, false) := by
        show some (user.take (userNameLen - 1), hashPass pass, false) = _
        rw [List.take_of_length_le hfits]
      rw [hentry]
      exact hput
    | none =>
      have hfull := h.accounts.free_eq_none_iff.mp hfree
      dsimp only
      rw [if_neg fun hroom => hfull hroom.2]
      exact ⟨rfl, h⟩

theorem delUser (h : l.Has a) (user : List UInt8) :
    (loginDelUser l user).2 = (a.delUser user).2 ∧
      (loginDelUser l user).1.Has (a.delUser user).1 := by
  have hremove := h.accounts.remove user
  unfold SlotTable.remove at hremove
  unfold loginDelUser Accounts.delUser
  rw [loginFind_eq]
  by_cases hroot : user = rootName
  · rw [if_pos hroot, if_neg fun hno => hno.1 hroot]
    exact ⟨rfl, h⟩
  · rw [if_neg hroot]
    cases hfind : (accountView l).find user with
    | some i =>
      obtain ⟨account, hi⟩ := SlotTable.find_eq_some hfind
      have hmem : user ∈ a.map.keys := h.accounts.mem_keys.mpr ⟨i, account, hi⟩
      rw [hfind] at hremove
      dsimp only at hremove ⊢
      rw [if_pos ⟨hroot, hmem⟩]
      refine ⟨rfl, ⟨?_, h.currentUser, h.loggedIn⟩⟩
      rw [accountView_update]
      have hentry : User.entry { l.users i with active := false } = none := if_neg Bool.false_ne_true
      rw [hentry]
      exact hremove
    | none =>
      dsimp only
      rw [if_neg]
      · exact ⟨rfl, h⟩
      · rintro ⟨-, hmem⟩
        obtain ⟨i, account, hi⟩ := h.accounts.mem_keys.mp hmem
        exact SlotTable.find_eq_none.mp hfind i account hi

theorem changePass (h : l.Has a) (user oldPass newPass : List UInt8) :
    (loginChangePass l user oldPass newPass).2 = (a.changePass user oldPass newPass).2 ∧
      (loginChangePass l user oldPass newPass).1.Has (a.changePass user oldPass newPass).1 := by
  unfold loginChangePass Accounts.changePass
  rw [loginFind_eq, ← h.accounts.get_eq]
  unfold SlotTable.get
  cases hfind : (accountView l).find user with
  | none => exact ⟨rfl, h⟩
  | some i =>
    obtain ⟨⟨hash, admin⟩, hi⟩ := SlotTable.find_eq_some hfind
    obtain ⟨hactive, hname, hpass, hadmin⟩ := accountView_eq_some.mp hi
    rw [Option.bind_some, hi]
    dsimp only [Option.map_some]
    rw [hpass]
    split_ifs with hold
    · have hput := h.accounts.put user (hashPass newPass, admin)
      unfold SlotTable.put at hput
      rw [hfind] at hput
      refine ⟨rfl, ⟨?_, h.currentUser, h.loggedIn⟩⟩
      rw [accountView_update]
      have hentry : User.entry { l.users i with passHash := hashPass newPass } =
          some (user, hashPass newPass, admin) := by
        unfold User.entry
        dsimp only
        rw [if_pos hactive, hname, hadmin]
      rw [hentry]
      exact hput
    · exact ⟨rfl, h⟩

theorem loop (h : l.Has a) (n : ℕ) (typed : List (List UInt8 × List UInt8)) :
    loginLoop l n typed =
      match (typed.take n).find? fun up => a.accepts up.1 up.2 with
      | some up => ({ l with currentUser := up.1, loggedIn := true }, true)
      | none => (l, false) := by
  induction typed generalizing n with
  | nil =>
    rw [List.take_nil, List.find?_nil]
    cases n <;> rfl
  | cons up typed ih =>
    cases n with
    | zero => rfl
    | succ n =>
      unfold loginLoop
      rw [List.take_succ_cons, List.find?_cons, h.authenticate_eq]
      cases a.accepts up.1 up.2 with
      | true => rfl
      | false => exact ih n

/-- **Every call** has the result that it has on the accounts, and does the same to them. -/
theorem step (h : l.Has a) {op : LoginOp} (hfits : op.Fits) :
    (op.run l).2 = (op.onAccounts a).2 ∧ (op.run l).1.Has (op.onAccounts a).1 := by
  cases op with
  | addUser user pass => exact h.addUser hfits pass
  | delUser user => exact h.delUser user
  | changePass user oldPass newPass => exact h.changePass user oldPass newPass
  | setUser user => exact ⟨rfl, ⟨h.accounts, rfl, rfl⟩⟩
  | logout => exact ⟨rfl, ⟨h.accounts, rfl, rfl⟩⟩
  | prompt typed =>
    show (loginPrompt l typed).2 = (a.prompt typed).2 ∧
      (loginPrompt l typed).1.Has (a.prompt typed).1
    unfold loginPrompt Accounts.prompt
    rw [h.loop 3 typed]
    cases (typed.take 3).find? fun up => a.accepts up.1 up.2 with
    | some up => exact ⟨rfl, ⟨h.accounts, rfl, rfl⟩⟩
    | none => exact ⟨rfl, h⟩

end Login.Has

/-! ## Runs -/

/-- The accounts that `login_init` makes. -/
def Accounts.initial (l : Login) : Accounts :=
  { map := (((BoundedMap.empty maxUsers (List UInt8) Account).put rootName
      (hashPass rootName, true)).put userName (hashPass userName, false)).put guestName
        (hashPass [], false)
    currentUser := l.currentUser
    loggedIn := l.loggedIn }

theorem loginInit_has (l : Login) : (loginInit l).Has (Accounts.initial l) := by
  refine ⟨?_, rfl, rfl⟩
  have hview : accountView (loginInit l) =
      SlotTable.put guestName (hashPass [], false) (SlotTable.put userName (hashPass userName, false)
        (SlotTable.put rootName (hashPass rootName, true) fun _ => none)) := by
    funext i
    fin_cases i <;> rfl
  rw [hview]
  exact ((SlotTable.represents_empty.put _ _).put _ _).put _ _

/-- **The users are a map** with at most `MAX_USERS` accounts: as long as the names that are added fit in
their buffers, every call after `login_init` has the result that it has on the map, and the passwords that
are accepted are those of the map. -/
theorem login_isMap (l : Login) (ops : List LoginOp) (hfits : ∀ op ∈ ops, op.Fits) :
    (Machine.results LoginOp.run (loginInit l) ops).1 =
        (Machine.results LoginOp.onAccounts (Accounts.initial l) ops).1 ∧
      ∀ user pass, loginAuthenticate (Machine.results LoginOp.run (loginInit l) ops).2 user pass =
        (Machine.results LoginOp.onAccounts (Accounts.initial l) ops).2.accepts user pass := by
  have hsim : Machine.Simulates LoginOp.Fits Login.Has LoginOp.run LoginOp.onAccounts := by
    intro l a op hop h
    exact h.step hop
  obtain ⟨hresults, hend⟩ := hsim.results_eq (loginInit_has l) hfits
  exact ⟨hresults, hend.authenticate_eq⟩

/-- The table before `login_init`. -/
def Login.empty : Login := ⟨fun _ => User.zero, [], false⟩

/-- A user is added and logs in. -/
theorem login_isMap_added :
    let ops : List LoginOp := [.addUser [0x61] [0x62], .prompt [([0x61], [0x62])]]
    (Machine.results LoginOp.run (loginInit Login.empty) ops).1 =
        (Machine.results LoginOp.onAccounts (Accounts.initial Login.empty) ops).1 ∧
      ∀ user pass,
        loginAuthenticate (Machine.results LoginOp.run (loginInit Login.empty) ops).2 user pass =
          (Machine.results LoginOp.onAccounts (Accounts.initial Login.empty) ops).2.accepts user
            pass := by
  refine login_isMap Login.empty _ fun op hop => ?_
  simp only [List.mem_cons, List.not_mem_nil, or_false] at hop
  obtain rfl | rfl := hop
  · exact (by decide : [(0x61 : UInt8)].length ≤ userNameLen - 1)
  · trivial

/-! ## Root -/

/-- The first entry is root, an administrator; no other active user has that name or is an
administrator. -/
structure Login.RootIsSafe (l : Login) : Prop where
  active : (l.users 0).active = true
  name : (l.users 0).name = rootName
  admin : (l.users 0).isAdmin = true
  others : ∀ i, i ≠ 0 → (l.users i).active = true →
    (l.users i).name ≠ rootName ∧ (l.users i).isAdmin = false

namespace Login.RootIsSafe

/-- Root is found in the first entry. -/
theorem find_root (h : l.RootIsSafe) : l.find rootName = some 0 := by
  unfold Login.find
  rw [List.finRange_succ, List.find?_cons_of_pos]
  rw [h.active, h.name, decide_eq_true rfl]
  rfl

theorem find_eq_some (hfind : l.find user = some i) :
    (l.users i).active = true ∧ (l.users i).name = user := by
  have hi := List.find?_some hfind
  simp only [Bool.and_eq_true, decide_eq_true_eq] at hi
  exact hi

/-- Another user is another entry. -/
theorem ne_zero_of_find (h : l.RootIsSafe) (huser : user ≠ rootName) (hfind : l.find user = some i) :
    i ≠ 0 := by
  rintro rfl
  exact huser ((find_eq_some hfind).2.symm.trans h.name)

/-- An entry other than the first one is changed, and not to another root. -/
theorem update (h : l.RootIsSafe) (hi : i ≠ 0) {u : User}
    (hu : u.active = true → u.name ≠ rootName ∧ u.isAdmin = false) :
    RootIsSafe { l with users := Function.update l.users i u } := by
  have hzero : Function.update l.users i u 0 = l.users 0 := Function.update_of_ne hi.symm _ _
  refine ⟨?_, ?_, ?_, ?_⟩
  · show (Function.update l.users i u 0).active = true
    rw [hzero, h.active]
  · show (Function.update l.users i u 0).name = rootName
    rw [hzero, h.name]
  · show (Function.update l.users i u 0).isAdmin = true
    rw [hzero, h.admin]
  · intro j hj hactive
    change (Function.update l.users i u j).active = true at hactive
    show (Function.update l.users i u j).name ≠ rootName ∧
      (Function.update l.users i u j).isAdmin = false
    by_cases hji : j = i
    · rw [hji, Function.update_self] at hactive ⊢
      exact hu hactive
    · rw [Function.update_of_ne hji] at hactive ⊢
      exact h.others j hj hactive

/-- A password is changed, and nothing else. -/
theorem setHash (h : l.RootIsSafe) (i : Fin maxUsers) (hash : UInt32) :
    RootIsSafe { l with users := Function.update l.users i { l.users i with passHash := hash } } := by
  have hsame : ∀ j, (Function.update l.users i { l.users i with passHash := hash } j).active =
        (l.users j).active ∧
      (Function.update l.users i { l.users i with passHash := hash } j).name = (l.users j).name ∧
      (Function.update l.users i { l.users i with passHash := hash } j).isAdmin =
        (l.users j).isAdmin := by
    intro j
    by_cases hj : j = i
    · rw [hj, Function.update_self]
      exact ⟨rfl, rfl, rfl⟩
    · rw [Function.update_of_ne hj]
      exact ⟨rfl, rfl, rfl⟩
  refine ⟨(hsame 0).1.trans h.active, (hsame 0).2.1.trans h.name, (hsame 0).2.2.trans h.admin, ?_⟩
  intro j hj hactive
  obtain ⟨hname, hadmin⟩ := h.others j hj ((hsame j).1.symm.trans hactive)
  exact ⟨fun heq => hname ((hsame j).2.1.symm.trans heq), (hsame j).2.2.trans hadmin⟩

end Login.RootIsSafe

/-- The hash of root's password after a call. -/
def rootHash (hash : UInt32) : LoginOp → UInt32
  | .changePass user oldPass newPass =>
    if user = rootName ∧ hash = hashPass oldPass then hashPass newPass else hash
  | _ => hash

namespace Login.RootIsSafe

/-- A name that is cut is not root's. -/
theorem take_ne_rootName (h : user ≠ rootName) : user.take (userNameLen - 1) ≠ rootName := by
  intro heq
  have hlen := congrArg List.length heq
  rw [List.length_take] at hlen
  have hroot : rootName.length = 4 := rfl
  have hmax : userNameLen - 1 = 15 := rfl
  rw [List.take_of_length_le (by omega)] at heq
  exact h heq

/-- What one call preserves, whatever the names are. -/
theorem step (h : l.RootIsSafe) (op : LoginOp) :
    (op.run l).1.RootIsSafe ∧
      ((op.run l).1.users 0).passHash = rootHash (l.users 0).passHash op := by
  cases op with
  | addUser user pass =>
    show (loginAddUser l user pass).1.RootIsSafe ∧
      ((loginAddUser l user pass).1.users 0).passHash = (l.users 0).passHash
    unfold loginAddUser
    cases hfind : l.find user with
    | some i => exact ⟨h, rfl⟩
    | none =>
      cases hfree : (List.finRange maxUsers).find? fun i => !(l.users i).active with
      | none => exact ⟨h, rfl⟩
      | some i =>
        have hne : user ≠ rootName := by
          rintro rfl
          rw [h.find_root] at hfind
          cases hfind
        have hi : i ≠ 0 := by
          rintro rfl
          have hnot := List.find?_some hfree
          rw [h.active] at hnot
          exact absurd hnot Bool.false_ne_true
        refine ⟨h.update hi fun _ => ⟨take_ne_rootName hne, rfl⟩, ?_⟩
        show (Function.update l.users i (User.new user pass) 0).passHash = _
        rw [Function.update_of_ne hi.symm]
  | delUser user =>
    show (loginDelUser l user).1.RootIsSafe ∧
      ((loginDelUser l user).1.users 0).passHash = (l.users 0).passHash
    unfold loginDelUser
    split_ifs with hroot
    · exact ⟨h, rfl⟩
    · cases hfind : l.find user with
      | none => exact ⟨h, rfl⟩
      | some i =>
        have hi := h.ne_zero_of_find hroot hfind
        refine ⟨h.update hi fun hactive => absurd hactive Bool.false_ne_true, ?_⟩
        show (Function.update l.users i { l.users i with active := false } 0).passHash = _
        rw [Function.update_of_ne hi.symm]
  | changePass user oldPass newPass =>
    show (loginChangePass l user oldPass newPass).1.RootIsSafe ∧
      ((loginChangePass l user oldPass newPass).1.users 0).passHash =
        if user = rootName ∧ (l.users 0).passHash = hashPass oldPass then hashPass newPass
        else (l.users 0).passHash
    unfold loginChangePass
    by_cases hroot : user = rootName
    · rw [hroot, h.find_root]
      dsimp only
      split_ifs with hold hboth hboth
      · refine ⟨h.setHash 0 _, ?_⟩
        dsimp only
        rw [Function.update_self]
      · exact absurd ⟨rfl, hold⟩ hboth
      · exact absurd hboth.2 hold
      · exact ⟨h, rfl⟩
    · rw [if_neg fun hboth => hroot hboth.1]
      cases hfind : l.find user with
      | none => exact ⟨h, rfl⟩
      | some i =>
        have hi := h.ne_zero_of_find hroot hfind
        dsimp only
        split_ifs
        · refine ⟨h.setHash i _, ?_⟩
          dsimp only
          rw [Function.update_of_ne hi.symm]
        · exact ⟨h, rfl⟩
  | setUser user => exact ⟨⟨h.active, h.name, h.admin, h.others⟩, rfl⟩
  | logout => exact ⟨⟨h.active, h.name, h.admin, h.others⟩, rfl⟩
  | prompt typed =>
    have hloop : ∀ n typed, (loginLoop l n typed).1.users = l.users := by
      intro n typed
      induction typed generalizing n with
      | nil => cases n <;> rfl
      | cons up typed ih =>
        cases n with
        | zero => rfl
        | succ n =>
          unfold loginLoop
          split_ifs
          · rfl
          · exact ih n
    have husers := hloop 3 typed
    show (loginLoop l 3 typed).1.RootIsSafe ∧
      ((loginLoop l 3 typed).1.users 0).passHash = (l.users 0).passHash
    rw [husers]
    refine ⟨⟨?_, ?_, ?_, ?_⟩, rfl⟩ <;> rw [husers]
    · exact h.active
    · exact h.name
    · exact h.admin
    · exact h.others

theorem loginInit (l : Login) : (loginInit l).RootIsSafe := by
  refine ⟨rfl, rfl, rfl, fun i hi hactive => ?_⟩
  fin_cases i
  · exact absurd rfl hi
  · exact ⟨(by decide : userName ≠ rootName), rfl⟩
  · exact ⟨(by decide : guestName ≠ rootName), rfl⟩
  all_goals exact absurd hactive Bool.false_ne_true

/-- The password of root is right exactly if it has the hash in the first entry. -/
theorem authenticate_iff (h : l.RootIsSafe) (pass : List UInt8) :
    loginAuthenticate l rootName pass = true ↔ (l.users 0).passHash = hashPass pass := by
  unfold loginAuthenticate
  rw [List.any_eq_true]
  constructor
  · rintro ⟨i, -, hi⟩
    simp only [Bool.and_eq_true, decide_eq_true_eq, beq_iff_eq] at hi
    obtain ⟨⟨hactive, hname⟩, hhash⟩ := hi
    by_cases hzero : i = 0
    · rw [← hzero]
      exact hhash
    · exact absurd hname (h.others i hzero hactive).1
  · intro hhash
    refine ⟨0, List.mem_finRange 0, ?_⟩
    rw [h.active, h.name, hhash, decide_eq_true rfl, beq_self_eq_true]
    rfl

end Login.RootIsSafe

/-- **Root stays root.**  Whatever is called after `login_init`, also with names that do not fit, root is
there and the only administrator, nobody else has the name, and its password is the one that was set
last by someone who gave the one before. -/
theorem login_root (l : Login) (ops : List LoginOp) :
    let l' := (Machine.results LoginOp.run (loginInit l) ops).2
    l'.RootIsSafe ∧ ∀ pass, loginAuthenticate l' rootName pass = true ↔
      ops.foldl rootHash (hashPass rootName) = hashPass pass := by
  have hrun : ∀ (ops : List LoginOp) (l : Login), l.RootIsSafe →
      (Machine.results LoginOp.run l ops).2.RootIsSafe ∧
        ((Machine.results LoginOp.run l ops).2.users 0).passHash =
          ops.foldl rootHash (l.users 0).passHash := by
    intro ops
    induction ops with
    | nil =>
      intro l h
      exact ⟨h, rfl⟩
    | cons op ops ih =>
      intro l h
      obtain ⟨hsafe, hhash⟩ := h.step op
      obtain ⟨hend, hlast⟩ := ih _ hsafe
      rw [hhash] at hlast
      exact ⟨hend, hlast⟩
  obtain ⟨hsafe, hhash⟩ := hrun ops (loginInit l) (Login.RootIsSafe.loginInit l)
  refine ⟨hsafe, fun pass => ?_⟩
  rw [hsafe.authenticate_iff, hhash]
  rfl

end Microkernel
