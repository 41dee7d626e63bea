import Espix.Ssh.Packet

/-! The SFTP server.

Requests are answered one by one. A WRITE is not gathered first: its header starts a write, and what
follows goes to the file as it comes. `components/espix_ssh/sftp.c`. -/

namespace Espix.Ssh.Sftp

open Lib.Xdr (Bytes word)

def fxpInit : Nat := 1
def fxpOpen : Nat := 3
def fxpClose : Nat := 4
def fxpRead : Nat := 5
def fxpWrite : Nat := 6
def fxpLstat : Nat := 7
def fxpFstat : Nat := 8
def fxpSetstat : Nat := 9
def fxpFsetstat : Nat := 10
def fxpOpendir : Nat := 11
def fxpReaddir : Nat := 12
def fxpRemove : Nat := 13
def fxpMkdir : Nat := 14
def fxpRmdir : Nat := 15
def fxpRealpath : Nat := 16
def fxpStat : Nat := 17
def fxpRename : Nat := 18

def fxOk : Nat := 0
def fxEof : Nat := 1
def fxNoSuchFile : Nat := 2
def fxPermissionDenied : Nat := 3
def fxFailure : Nat := 4
def fxOpUnsupported : Nat := 8

def fxfWrite : Nat := 1
def fxfAppend : Nat := 2
def fxfCreat : Nat := 3
def fxfTrunc : Nat := 4
def fxfExcl : Nat := 5
def attrSize : Nat := 0
def attrUidgid : Nat := 1
def attrPermissions : Nat := 2

def sftpHandles : Nat := 4
def readMax : Nat := 8192
def outMax : Nat := readMax + 256
def channelMaxPacket : Nat := 2048
def inMax : Nat := maxPacket + channelMaxPacket
def writeHead : Nat := 32
def writeMax : Nat := 256 * 1024 + 1024
def pathMax : Nat := 128
def permBits : Nat := 0o777

structure Stat where
  size : Nat
  isDir : Bool
  mode : Nat
  mtime : Nat

structure Entry where
  name : Bytes
  longName : Bytes
  st : Stat
  mode : Nat

inductive Mode
  | rb
  | wb
  | ab
  | updateb

inductive Chmod
  | ok
  | notAllowed
  | failed

/-- What the server asks of the file system and of the channel, which may be in any state and answer
anything. -/
structure Host where
  State : Type
  File : Type
  Dir : Type
  resolve : Bytes → Option Bytes
  strerror : Nat → String
  stat : Bytes → State → Except Nat Stat × State
  access : Bytes → State → Bool × State
  fopen : Bytes → Mode → State → Except Nat File × State
  opendir : Bytes → State → Except Nat Dir × State
  readdir : Bytes → Dir → State → Option Entry × State
  fseek : File → Nat → State → Bool × State
  fread : File → Nat → State → (Bytes × Bool) × State
  fputc : File → UInt8 → State → Bool × State
  /-- The error, zero for none, as for the rest. -/
  fclose : File → State → Nat × State
  closedir : Dir → State → Nat × State
  chmod : Bytes → Nat → State → Chmod × State
  unlink : Bytes → State → Nat × State
  mkdir : Bytes → State → Nat × State
  rmdir : Bytes → State → Nat × State
  rename : Bytes → Bytes → State → Nat × State
  /-- Whether `ssh_channel_send_raw` gets the next reply out. -/
  send : State → Bool × State

inductive Reply
  | version
  | status (id code : Nat) (text : String)
  | handle (id index : Nat)
  | attrs (id : Nat) (st : Stat)
  | name (id : Nat) (name longName : Bytes) (attrs : Option (Stat × Nat))
  | data (id : Nat) (bytes : Bytes)

def Reply.size : Reply → Nat
  | .version => 5
  | .status _ _ text => 17 + text.utf8ByteSize
  | .handle .. => 13
  | .attrs .. => 29
  | .name _ short long known => 17 + short.length + long.length + if known.isSome then 24 else 4
  | .data _ bytes => 9 + bytes.length

section Wire

structure In where
  rest : Bytes
  pos : Nat
  bad : Bool

def readFrom (data : Bytes) : In := ⟨data, 0, false⟩

def getU8 (b : In) : Nat × In :=
  if b.bad = false ∧ 1 ≤ b.rest.length then
  ((b.rest.headD 0).toNat, ⟨b.rest.drop 1, b.pos + 1, false⟩)
  else (0, { b with bad := true })

def getU32 (b : In) : Nat × In :=
  if b.bad = false ∧ 4 ≤ b.rest.length then
  (wordAt (b.rest.take 4), ⟨b.rest.drop 4, b.pos + 4, false⟩)
  else (0, { b with bad := true })

def getString (b : In) : Option Bytes × In :=
  let (len, b) := getU32 b
  if b.bad ∨ len > b.rest.length then (none, { b with bad := true })
  else (some (b.rest.take len), ⟨b.rest.drop len, b.pos + len, false⟩)

end Wire

variable {host : Host}

variable (host) in
structure Handle where
  isDir : Bool
  file : Option host.File
  dir : Option host.Dir
  path : Bytes

variable (host) in
structure Core where
  sys : host.State
  handles : Nat → Option (Handle host)

def handleAlloc (core : Core host) : Option Nat :=
  (List.range sftpHandles).find? fun i => (core.handles i).isNone

def handleGet (core : Core host) (b : In) : Option (Nat × Handle host) × In :=
  match getString b with
  | (some raw, b) =>
    if raw.length ≠ 4 then (none, b)
    else if wordAt raw ≥ sftpHandles then (none, b)
    else ((core.handles (wordAt raw)).map fun h => (wordAt raw, h), b)
  | (none, b) => (none, b)

abbrev Do (host : Host) := StateM (Core host)

def onHost {A : Type} (f : host.State → A × host.State) : Do host A := fun core =>
  let (a, state) := f core.sys
  (a, { core with sys := state })

def setHandle (i : Nat) (h : Option (Handle host)) : Do host Unit :=
  modify fun core => { core with handles := Function.update core.handles i h }

def handleClose (i : Nat) (h : Handle host) : Do host Nat := do
  let err ← match h.file with
    | some f => onHost (host.fclose f)
    | none => pure 0
  let also ← match h.dir with
    | some d => onHost (host.closedir d)
    | none => pure 0
  setHandle i none
  pure (if err = 0 then also else err)

def statusFor (err : Nat) : Nat :=
  match err with
  | 0 => fxOk
  | 2 => fxNoSuchFile
  | 13 | 1 => fxPermissionDenied
  | _ => fxFailure

def cstr (bytes : Bytes) : Bytes := bytes.takeWhile (· ≠ 0)

def takePath (b : In) : Option Bytes × In :=
  match getString b with
  | (some p, b) => (if p.length ≥ pathMax then none else some (cstr p), b)
  | (none, b) => (none, b)

variable (host) in
/-- From the session's directory, `.` for nothing. -/
def resolve (given : Bytes) : Option Bytes := host.resolve (if given = [] then [46] else given)

variable (host) in
def takeResolved (b : In) : Option Bytes × In :=
  let (given, b) := takePath b
  (given.bind (resolve host), b)

def badPath (id : Nat) : Reply := .status id fxFailure "bad path"
def badHandle (id : Nat) : Reply := .status id fxFailure "bad handle"

def doRealpath (id : Nat) (b : In) : Do host Reply :=
  pure (match (takeResolved host b).1 with
    | some abs => .name id abs abs none
    | none => badPath id)

def doStat (id : Nat) (b : In) : Do host Reply := do
  match (takeResolved host b).1 with
  | none => pure (badPath id)
  | some abs =>
    match ← onHost (host.stat abs) with
    | .ok st => pure (.attrs id st)
    | .error _ => pure (.status id fxNoSuchFile "no such file")

def doFstat (id : Nat) (b : In) : Do host Reply := do
  match (handleGet (← get) b).1 with
  | none => pure (badHandle id)
  | some (_, h) =>
    match ← onHost (host.stat h.path) with
    | .ok st => pure (.attrs id st)
    | .error _ => pure (badHandle id)

def openMode (flags : Nat) : Mode :=
  if flags.testBit fxfWrite then
    if flags.testBit fxfAppend then .ab
    else if flags.testBit fxfCreat || flags.testBit fxfTrunc then .wb
    else .updateb
  else .rb

def doOpen (id : Nat) (b : In) : Do host Reply := do
  match takePath b with
  | (none, _) => pure (badPath id)
  | (some given, b) =>
    let flags := (getU32 b).1
    match handleAlloc (← get) with
    | none => pure (.status id fxFailure "too many open files")
    | some index =>
      match resolve host given with
      | none => pure (badPath id)
      | some path =>
        let taken ← if flags.testBit fxfExcl then onHost (host.access path) else pure false
        if taken then pure (.status id fxFailure "already exists")
        else
          match ← onHost (host.fopen path (openMode flags)) with
          | .error err => pure (.status id (statusFor err) "cannot open")
          | .ok f => do
            setHandle index (some ⟨false, some f, none, path⟩)
            pure (.handle id index)

def doOpendir (id : Nat) (b : In) : Do host Reply := do
  match (takePath b).1 with
  | none => pure (badPath id)
  | some given =>
    match handleAlloc (← get) with
    | none => pure (.status id fxFailure "too many open files")
    | some index =>
      match resolve host given with
      | none => pure (badPath id)
      | some path =>
        match ← onHost (host.opendir path) with
        | .error err => pure (.status id (statusFor err) "cannot open directory")
        | .ok d => do
          setHandle index (some ⟨true, none, some d, path⟩)
          pure (.handle id index)

def doReaddir (id : Nat) (b : In) : Do host Reply := do
  match (handleGet (← get) b).1 with
  | none => pure (badHandle id)
  | some (_, h) =>
    match h.dir with
    | none => pure (badHandle id)
    | some d =>
      match ← onHost (host.readdir h.path d) with
      | none => pure (.status id fxEof "end of directory")
      | some entry => pure (.name id entry.name entry.longName (some (entry.st, entry.mode)))

def beyond : String := "offset beyond 4 GiB (transfer path is 32-bit)"

def doRead (id : Nat) (b : In) : Do host Reply := do
  let (found, b) := handleGet (← get) b
  match found.bind (·.2.file) with
  | none => pure (badHandle id)
  | some f =>
    let (offHi, b) := getU32 b
    let (offset, b) := getU32 b
    let (want, b) := getU32 b
    if b.bad then pure (.status id fxFailure "malformed read")
    else if offHi ≠ 0 then pure (.status id fxFailure beyond)
    else
      let sought ← onHost (host.fseek f offset)
      if sought = false then pure (.status id fxFailure "seek failed")
      else
        let (got, failed) ← onHost (host.fread f (min want readMax))
        if got.length = 0 then
          pure (if failed then
            .status id fxFailure "read failed" else .status id fxEof "end of file")
        else pure (.data id got)

def doClose (id : Nat) (b : In) : Do host Reply := do
  match (handleGet (← get) b).1 with
  | none => pure (badHandle id)
  | some (i, h) =>
    let err ← handleClose i h
    pure (if err ≠ 0 then .status id (statusFor err) (host.strerror err) else .status id fxOk "")

def permissions (b : In) : Option Nat × In :=
  let (flags, b) := getU32 b
  let b := if flags.testBit attrSize then (getU32 (getU32 b).2).2 else b
  let b := if flags.testBit attrUidgid then (getU32 (getU32 b).2).2 else b
  if flags.testBit attrPermissions then ((some (getU32 b).1), (getU32 b).2) else (none, b)

def applyMode (id : Nat) (path : Bytes) (b : In) : Do host Reply := do
  match permissions b with
  | (none, _) => pure (.status id fxOk "")
  | (some perms, b) =>
    if b.bad then pure (.status id fxFailure "truncated attributes")
    else
      match ← onHost (host.stat path) with
      | .error err => pure (.status id (statusFor err) "no such file")
      | .ok st =>
        if st.isDir then pure (.status id fxOk "")
        else
          match ← onHost (host.chmod path (perms &&& permBits)) with
          | .ok => pure (.status id fxOk "")
          | .notAllowed => pure (.status id fxPermissionDenied "not the owner")
          | .failed => pure (.status id fxFailure "cannot set permissions")

def doSetstat (id : Nat) (b : In) (type : Nat) : Do host Reply := do
  if type = fxpFsetstat then
    match handleGet (← get) b with
    | (none, _) => pure (badHandle id)
    | (some (_, h), b) => applyMode id h.path b
  else
    match takeResolved host b with
    | (none, _) => pure (badPath id)
    | (some abs, b) => applyMode id abs b

def doPathOp (id : Nat) (b : In) (type : Nat) : Do host Reply := do
  match (takeResolved host b).1 with
  | none => pure (badPath id)
  | some abs =>
    let err ← if type = fxpRemove then onHost (host.unlink abs)
      else if type = fxpMkdir then onHost (host.mkdir abs)
      else onHost (host.rmdir abs)
    pure (if err ≠ 0 then .status id (statusFor err) "operation failed" else .status id fxOk "")

def doRename (id : Nat) (b : In) : Do host Reply := do
  let (from?, b) := takePath b
  let (to?, _) := takePath b
  match from?.bind (resolve host), to?.bind (resolve host) with
  | some absFrom, some absTo =>
    let err ← onHost (host.rename absFrom absTo)
    pure (if err ≠ 0 then .status id (statusFor err) "rename failed" else .status id fxOk "")
  | _, _ => pure (badPath id)

/-- The reply to a packet that is not a write; none to one too short for a request id. -/
def respond (packet : Bytes) : Do host (Option Reply) := do
  let (type, b) := getU8 (readFrom packet)
  if type = fxpInit then pure (some .version)
  else
    let (id, b) := getU32 b
    if b.bad then pure none
    else if type = fxpRealpath then some <$> doRealpath id b
    else if type = fxpStat ∨ type = fxpLstat then some <$> doStat id b
    else if type = fxpFstat then some <$> doFstat id b
    else if type = fxpOpen then some <$> doOpen id b
    else if type = fxpOpendir then some <$> doOpendir id b
    else if type = fxpReaddir then some <$> doReaddir id b
    else if type = fxpRead then some <$> doRead id b
    else if type = fxpClose then some <$> doClose id b
    else if type = fxpRename then some <$> doRename id b
    else if type = fxpRemove ∨ type = fxpMkdir ∨ type = fxpRmdir then some <$> doPathOp id b type
    else if type = fxpSetstat ∨ type = fxpFsetstat then some <$> doSetstat id b type
    else pure (some (.status id fxOpUnsupported "unsupported"))

inductive WriteError
  | malformed
  | inconsistent
  | handle
  | offset
  | seek
  | write

def WriteError.text : WriteError → String
  | .malformed => "malformed write"
  | .inconsistent => "inconsistent write length"
  | .handle => "bad handle"
  | .offset => beyond
  | .seek => "seek failed"
  | .write => "write failed"

variable (host) in
/-- A write that is being streamed; without a file its payload is thrown away. -/
structure Writing where
  file : Option host.File
  id : Nat
  left : Nat
  error : Option WriteError

variable (host) in
structure State where
  core : Core host
  replies : List Reply
  /-- The write in progress: `w_active` and the fields that go with it. -/
  writing : Option (Writing host)
  input : Bytes

def sftpSend (s : State host) (reply : Reply) : State host × Bool :=
  if reply.size > outMax then (s, false)
  else
    match host.send s.core.sys with
    | (true, state) =>
        ({ s with core := { s.core with sys := state }, replies := s.replies ++ [reply] }, true)
    | (false, state) => ({ s with core := { s.core with sys := state } }, false)

def dispatch (s : State host) (packet : Bytes) : State host × Bool :=
  match respond packet s.core with
  | (none, core) => ({ s with core }, false)
  | (some reply, core) => sftpSend { s with core } reply

structure WriteHeader (host : Host) where
  id : Nat
  handle : Option (Nat × Handle host)
  offHi : Nat
  offset : Nat
  len : Nat

def writeHeader (core : Core host) (pkt : Bytes) : WriteHeader host × In :=
  let (_, b) := getU8 (readFrom pkt)
  let (id, b) := getU32 b
  let (handle, b) := handleGet core b
  let (offHi, b) := getU32 b
  let (offset, b) := getU32 b
  let (len, b) := getU32 b
  (⟨id, handle, offHi, offset, len⟩, b)

/-- What is there of the packet, as far as it goes; the write, and how much of the packet was its
header. -/
def writeBegin (core : Core host) (pkt : Bytes) (plen : Nat) : Core host × Writing host × Nat :=
  match writeHeader core pkt with
  | (h, b) =>
    if b.bad then (core, ⟨none, h.id, plen - 1, some .malformed⟩, 1)
    else
      let left := plen - b.pos
      if h.len ≠ left then (core, ⟨none, h.id, left, some .inconsistent⟩, b.pos)
      else
        match h.handle.bind (·.2.file) with
        | none => (core, ⟨none, h.id, left, some .handle⟩, b.pos)
        | some f =>
          if h.offHi ≠ 0 then (core, ⟨none, h.id, left, some .offset⟩, b.pos)
          else
            match host.fseek f h.offset core.sys with
            | (false, state) => ({ core with sys := state }, ⟨none, h.id, left, some .seek⟩, b.pos)
            | (true, state) => ({ core with sys := state }, ⟨some f, h.id, left, none⟩, b.pos)

def fwrite (f : host.File) : Bytes → host.State → Bool × host.State
  | [], state => (true, state)
  | x :: rest, state =>
    match host.fputc f x state with
    | (true, state) => fwrite f rest state
    | (false, state) => (false, state)

def writeFeed (core : Core host) (w : Writing host) (data : Bytes) : Core host × Writing host :=
  let left := w.left - data.length
  match w.file with
  | none => (core, { w with left })
  | some f =>
    match fwrite f data core.sys with
    | (true, state) => ({ core with sys := state }, { w with left })
    | (false, state) =>
        ({ core with sys := state }, { w with left, file := none, error := some .write })

def writeFinish (s : State host) (w : Writing host) : State host × Bool :=
  let s := { s with writing := none }
  match w.error with
  | some err => sftpSend s (.status w.id fxFailure err.text)
  | none => sftpSend s (.status w.id fxOk "")

inductive Frame
  | wait
  | refuse
  | write (plen : Nat)
  | packet (plen : Nat)

def frame (input : Bytes) : Frame :=
  if input.length < 4 then .wait
  else
    let plen := wordAt (input.take 4)
    if plen = 0 then .refuse
    else
      match input[4]? with
      | none => .wait
      | some type =>
        if type.toNat = fxpWrite then
          if plen > writeMax then .refuse
          else if input.length < 4 + min plen writeHead then .wait
          else .write plen
        else if plen > maxPacket - 4 then .refuse
        else if input.length < 4 + plen then .wait
        else .packet plen

inductive Turn (host : Host)
  | done (s : State host) (ok : Bool)
  | again (s : State host)

def goOn : State host × Bool → Turn host
  | (s, true) => .again s
  | (s, false) => .done s false

def fed (s : State host) (w : Writing host) : State host × Writing host :=
  let take := min s.input.length w.left
  let r := writeFeed s.core w (s.input.take take)
  ({ s with core := r.1, writing := some r.2, input := s.input.drop take }, r.2)

def begun (s : State host) (plen : Nat) : State host :=
  let r := writeBegin s.core ((s.input.drop 4).take plen) plen
  { s with core := r.1, writing := some r.2.1, input := s.input.drop (4 + r.2.2) }

def answered (s : State host) (plen : Nat) : State host × Bool :=
  let r := dispatch s ((s.input.drop 4).take plen)
  if r.2 then ({ r.1 with input := r.1.input.drop (4 + plen) }, true) else (r.1, false)

def turn (s : State host) : Turn host :=
  match s.writing with
  | some w =>
      if 0 < (fed s w).2.left then .done (fed s w).1 true
        else goOn (writeFinish (fed s w).1 (fed s w).2)
  | none =>
    match frame s.input with
    | .wait => .done s true
    | .refuse => .done s false
    | .write plen => .again (begun s plen)
    | .packet plen => goOn (answered s plen)

theorem turn_idle {s : State host} (idle : s.writing = none) : turn s = match frame s.input with
    | .wait => .done s true
    | .refuse => .done s false
    | .write plen => .again (begun s plen)
    | .packet plen => goOn (answered s plen) := by
  rw [turn, idle]

theorem turn_writing {s : State host} {w : Writing host} (writing : s.writing = some w) :
    turn s = if 0 < (fed s w).2.left then
    .done (fed s w).1 true else goOn (writeFinish (fed s w).1 (fed s w).2) := by
  rw [turn, writing]

def work (s : State host) : Nat := 2 * s.input.length + if s.writing.isSome then 1 else 0

theorem sftpSend_frame (s : State host) (reply : Reply) :
    (sftpSend s reply).1.input = s.input ∧ (sftpSend s reply).1.writing = s.writing := by
  unfold sftpSend
  split
  · exact ⟨rfl, rfl⟩
  · split <;> exact ⟨rfl, rfl⟩

theorem dispatch_frame (s : State host) (packet : Bytes) :
    (dispatch s packet).1.input = s.input ∧ (dispatch s packet).1.writing = s.writing := by
  unfold dispatch
  split
  · exact ⟨rfl, rfl⟩
  · exact sftpSend_frame _ _

theorem writeFinish_frame (s : State host) (w : Writing host) :
    (writeFinish s w).1.input = s.input ∧ (writeFinish s w).1.writing = none := by
  unfold writeFinish
  dsimp only
  split <;> exact sftpSend_frame _ _

theorem length_of_frame {input : Bytes} {plen : Nat} :
    (frame input = .write plen → 0 < plen ∧ plen ≤ writeMax ∧
      4 + min plen writeHead ≤ input.length) ∧
      (frame input = .packet plen → 0 < plen ∧ plen ≤ maxPacket - 4 ∧ 4 + plen ≤ input.length) := by
  unfold frame
  dsimp only
  constructor
  all_goals
    intro framed
    (repeat' split at framed) <;> cases framed
    refine ⟨?_, ?_, ?_⟩ <;> omega

theorem goOn_again {r : State host × Bool} {t : State host} (turned : goOn r = .again t) :
    r = (t, true) := by
  obtain ⟨s, ok⟩ := r
  cases ok with
  | false => cases turned
  | true =>
    cases turned
    rfl

theorem turn_again {s t : State host} (turned : turn s = .again t) : work t < work s := by
  revert turned
  unfold work
  fun_cases turn s with
  | case1 | case3 | case4 => exact nofun
  | case2 w writing done =>
    intro turned
    have finished := goOn_again turned
    have rest := writeFinish_frame (fed s w).1 (fed s w).2
    rw [finished] at rest
    have shorter : t.input.length ≤ s.input.length := by
      rw [rest.1, fed, List.length_drop]
      exact Nat.sub_le _ _
    rw [rest.2, writing, Option.isSome_none, Option.isSome_some,
      if_neg Bool.false_ne_true, if_pos rfl]
    omega
  | case5 writing plen framed =>
    rintro ⟨⟩
    have there := (length_of_frame.1 framed).2.2
    rw [writing, Option.isSome_none, if_neg Bool.false_ne_true, begun, List.length_drop]
    split <;> omega
  | case6 writing plen framed =>
    intro turned
    have there := (length_of_frame.2 framed).2.2
    have result := goOn_again turned
    obtain ⟨same, still⟩ := dispatch_frame s ((s.input.drop 4).take plen)
    rw [writing, Option.isSome_none, if_neg Bool.false_ne_true]
    dsimp only [answered] at result
    split at result
    · cases result
      rw [still, same, writing, List.length_drop, Option.isSome_none, if_neg Bool.false_ne_true]
      omega
    · cases result

def pump (s : State host) : State host × Bool :=
  match _turned : turn s with
  | .done s ok => (s, ok)
  | .again t => pump t
termination_by work s
decreasing_by exact turn_again _turned

inductive Verdict
  | going
  | failed
  | dropped
  deriving DecidableEq

def run (s : State host) : List Bytes → State host × Verdict
  | [] => (s, .going)
  | chunk :: later =>
    if chunk.length = 0 then run s later
    else if s.input.length + chunk.length > inMax then (s, .dropped)
    else
      match pump { s with input := s.input ++ chunk } with
      | (s, true) => run s later
      | (s, false) => (s, .failed)

def start (sys : host.State) : State host := ⟨⟨sys, fun _ => none⟩, [], none, []⟩

def closeAll : List Nat → Do host Unit
  | [] => pure ()
  | i :: rest => do
    match (← get).handles i with
    | some h => let _ ← handleClose i h
    | none => pure ()
    closeAll rest

def ended (s : State host) : host.State × List Reply :=
  (((closeAll (List.range sftpHandles)).run s.core).2.sys, s.replies)

def sftpRun (sys : host.State) (chunks : List Bytes) : host.State × List Reply :=
  ended (run (start sys) chunks).1

end Espix.Ssh.Sftp
