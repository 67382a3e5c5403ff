/-
A transfer between two hosts: the key agreement, the preparation of the file on
one side, its bytes on the data connection, and their processing on the other.
The steps of the two sides interleave in any order.
-/
import EcFtp.DiffieHellman
import EcFtp.Prepare
import EcFtp.StoredRaw

namespace EcFtp

open ByteStrings Duplex Exec

/-- The bytes `do_put` and `do_retr` read from the prepared file at a time. -/
def blockSize : DhRole → Nat
  | .client => 4097
  | .server => 4096

/-- `while (0 != (nmem_read = fread(sendline, 1, n, in)))`: the prepared file is
written to the data connection block by block. -/
def sendBlocks (n : Nat) : Nat → Bytes → Proc Byte PUnit
  | 0, _ => .done ⟨⟩
  | fuel + 1, bs =>
      if bs = [] then .done ⟨⟩
      else .send (bs.take n) (sendBlocks n fuel (bs.drop n))

/-- The prepared file is sent, and the data connection closed. -/
def sendFile (role : DhRole) (bs : Bytes) : Proc Byte PUnit :=
  (sendBlocks (blockSize role) bs.length bs).bind fun _ => .close (.done ⟨⟩)

/-- The side that has the file: `do_put` on the client, `do_retr` on the
server, up to the removal of the prepared file. -/
def sender (lzma : Lzma) (env : PrepareEnv) (role : DhRole) (draws : Draws)
    (filename : Path) (fs : FileSystem) :
    Proc Byte (EStateM.Result Exit FileSystem Path) := do
  let key ← doDh draws role
  match prepareFile lzma env filename key fs with
  | .error e fs => pure (.error e fs)
  | .ok preparedFp fs => do
      sendFile role ((fs.content preparedFp).getD [])
      pure (.ok preparedFp fs)

/-- `while ((read_len = read(datafd, recvline, MAXLINE)) > 0)`. -/
def receiveFile : Proc Byte Bytes := .collect [] .done

/-- The side that gets the file: `do_get` on the client, `do_stor` on the
server. -/
def receiver (lzma : Lzma) (env : ProcessEnv) (recvDigits : Digits) (role : DhRole)
    (draws : Draws) (filename : Path) (fs : FileSystem) :
    Proc Byte (EStateM.Result Exit FileSystem PUnit) := do
  let key ← doDh draws role
  match tempRecvName filename recvDigits fs with
  | .error e fs => pure (.error e fs)
  | .ok recvFp fs => do
      let bs ← receiveFile
      pure (processReceivedFile lzma env filename recvFp key
        (fs.write recvFp (.clip bs)))

/-- Who sends, what the two sides draw, what their hosts decide, and the files
they have. -/
structure Session where
  role : DhRole
  senderDraws : Draws
  receiverDraws : Draws
  senderEnv : PrepareEnv
  receiverEnv : ProcessEnv
  recvDigits : Digits
  source : Path
  dest : Path
  senderFs : FileSystem
  receiverFs : FileSystem

namespace Session

variable (t : Session) (lzma : Lzma)

def start : Net Byte (EStateM.Result Exit FileSystem Path)
    (EStateM.Result Exit FileSystem PUnit) :=
  .start (sender lzma t.senderEnv t.role t.senderDraws t.source t.senderFs)
    (receiver lzma t.receiverEnv t.recvDigits t.role.other t.receiverDraws t.dest
      t.receiverFs)

/-- The session ends with both functions returning zero, and these files. -/
def EndsWith (preparedFp : Path) (fs fs' : FileSystem) : Prop :=
  ∃ s, Net.Runs (t.start lzma) s ∧ s.left = .done (.ok preparedFp fs) ∧
    s.right = .done (.ok ⟨⟩ fs')

/-- The destination holds the file; the source, and every other file but the
prepared one, is as before. -/
def Delivered (x : FileData) (preparedFp : Path) (fs fs' : FileSystem) : Prop :=
  fs' t.dest = some x ∧ fs t.source = some x ∧
    (fs preparedFp).isSome ∧ t.senderFs preparedFp = none ∧
    (∀ fp, fp ≠ preparedFp → fs fp = t.senderFs fp) ∧
    ∀ fp, fp ≠ t.dest → fs' fp = t.receiverFs fp

end Session

/-- Every session that ends with both functions returning zero delivers `x`. -/
def Keeps (lzma : Lzma) (x : FileData) : Prop :=
  ∀ t : Session, t.senderFs t.source = some x → ∀ preparedFp fs fs',
    t.EndsWith lzma preparedFp fs fs' → t.Delivered x preparedFp fs fs'

section Ends

variable {u w bs : Bytes} {e : Bool} {a : PUnit} {n fuel : Nat}

theorem sendBlocks_ends (hn : 0 < n) (hfuel : bs.length ≤ fuel)
    (h : Ends (sendBlocks n fuel bs) u w e a) : u = [] ∧ w = bs ∧ e = false := by
  induction fuel generalizing bs w with
  | zero =>
      cases h with
      | done => exact ⟨rfl, (List.eq_nil_of_length_eq_zero (by omega)).symm, rfl⟩
  | succ fuel ih =>
      rw [sendBlocks] at h
      split at h
      · rename_i hnil
        cases h with
        | done => exact ⟨rfl, hnil.symm, rfl⟩
      · rename_i hne
        have hpos := List.length_pos_iff.mpr hne
        cases h with
        | send h =>
            obtain ⟨hu, rfl, he⟩ := ih (by rw [List.length_drop]; omega) h
            exact ⟨hu, List.take_append_drop n bs, he⟩

/-- The sender of a file reads nothing and sends the file. -/
theorem sendFile_ends {role : DhRole} (h : Ends (sendFile role bs) u w e a) :
    u = [] ∧ w = bs ∧ e = false := by
  obtain ⟨_, u₁, w₁, e₁, u₂, w₂, e₂, hsend, hclose, rfl, rfl, rfl⟩ := h.bind_inv
  have hpos : 0 < blockSize role := by cases role <;> decide
  obtain ⟨rfl, rfl, rfl⟩ := sendBlocks_ends hpos (Nat.le_refl _) hsend
  cases hclose with
  | close h =>
      cases h with
      | done => exact ⟨rfl, List.append_nil _, rfl⟩

/-- The receiver of a file reads to the end of the stream. -/
theorem receiveFile_ends (h : Ends receiveFile u w e bs) :
    u = bs ∧ w = [] ∧ e = true := by
  obtain ⟨rfl, msg, rest, e', rfl, hdone⟩ := h.collect_inv
  cases hdone with
  | done => exact ⟨List.append_nil _, rfl, rfl⟩

end Ends

section Endpoints

variable {lzma : Lzma} {role : DhRole} {draws : Draws} {filename preparedFp : Path}
  {fs fs' : FileSystem} {u w : Bytes} {e : Bool}

/-- A sender that ends with a prepared file has sent its public values and the
bytes of that file, and read the other side's. -/
theorem sender_ends {env : PrepareEnv}
    (h : Ends (sender lzma env role draws filename fs) u w e (.ok preparedFp fs')) :
    ∃ key, prepareFile lzma env filename key fs = .ok preparedFp fs' ∧
      u.length = 32 ∧
      w = publicBytes draws.exponents (List.finRange 4) ++
        (fs'.content preparedFp).getD [] ∧
      ∀ theirs, u = publicBytes theirs (List.finRange 4) →
        key = agreedKey draws.exponents theirs := by
  obtain ⟨key, u₁, w₁, e₁, u₂, w₂, e₂, hdh, hrest, rfl, rfl, rfl⟩ :=
    Ends.bind_inv h
  obtain ⟨rfl, hlen, rfl, hkey⟩ := doDh_ends hdh
  cases hprepare : prepareFile lzma env filename key fs with
  | error err fs₁ =>
      rw [hprepare] at hrest
      cases hrest
  | ok preparedFp₁ fs₁ =>
      rw [hprepare] at hrest
      obtain ⟨_, u₃, w₃, e₃, u₄, w₄, e₄, hsend, hdone, rfl, rfl, rfl⟩ :=
        Ends.bind_inv hrest
      obtain ⟨rfl, rfl, rfl⟩ := sendFile_ends hsend
      cases hdone
      refine ⟨key, hprepare, ?_, ?_, ?_⟩
      · simpa using hlen
      · simp
      · simpa using hkey

/-- A receiver that ends with a processed file has read the other side's public
values and, to the end, the bytes it processed. -/
theorem receiver_ends {env : ProcessEnv} {recvDigits : Digits}
    (h : Ends (receiver lzma env recvDigits role draws filename fs) u w e
      (.ok ⟨⟩ fs')) :
    ∃ key recvFp bs, fs recvFp = none ∧
      processReceivedFile lzma env filename recvFp key
        (fs.write recvFp (.clip bs)) = .ok ⟨⟩ fs' ∧
      w = publicBytes draws.exponents (List.finRange 4) ∧ e = true ∧
      ∃ values : Bytes, values.length = 32 ∧ u = values ++ bs ∧
        ∀ theirs, values = publicBytes theirs (List.finRange 4) →
          key = agreedKey draws.exponents theirs := by
  obtain ⟨key, u₁, w₁, e₁, u₂, w₂, e₂, hdh, hrest, rfl, rfl, rfl⟩ :=
    Ends.bind_inv h
  obtain ⟨rfl, hlen, rfl, hkey⟩ := doDh_ends hdh
  cases hname : tempRecvName filename recvDigits fs with
  | error err fs₁ =>
      rw [hname] at hrest
      cases hrest
  | ok recvFp fs₁ =>
      obtain ⟨_, hfree, rfl⟩ := mkstemp_ok hname
      rw [hname] at hrest
      obtain ⟨bs, u₃, w₃, e₃, u₄, w₄, e₄, hreceive, hdone, rfl, rfl, rfl⟩ :=
        Ends.bind_inv hrest
      obtain ⟨rfl, rfl, rfl⟩ := receiveFile_ends hreceive
      generalize hprocess : processReceivedFile lzma env filename recvFp key
        (fs.write recvFp (.clip u₃)) = result at hdone
      cases hdone
      exact ⟨key, recvFp, u₃, hfree, hprocess, by simp, rfl, u₁, hlen, by simp,
        hkey⟩

end Endpoints

theorem length_publicBytes (exponents : Exponents) :
    (publicBytes exponents (List.finRange 4)).length = 32 := by
  simp [publicBytes, List.length_flatMap, wordBytes]

/-- In a session that ends well both sides have the same key, and the file that
is processed is the one that was prepared. -/
theorem Session.endsWith_inv {t : Session} {lzma : Lzma} {preparedFp : Path}
    {fs fs' : FileSystem} (h : t.EndsWith lzma preparedFp fs fs') :
    ∃ key recvFp,
      prepareFile lzma t.senderEnv t.source key t.senderFs = .ok preparedFp fs ∧
      t.receiverFs recvFp = none ∧
      processReceivedFile lzma t.receiverEnv t.dest recvFp key
        (t.receiverFs.write recvFp
          (.clip ((fs.content preparedFp).getD []))) = .ok ⟨⟩ fs' := by
  obtain ⟨s, hruns, hleft, hright⟩ := h
  obtain ⟨ul, wl, el, ur, wr, er, hl, hr, hur, hul, hend, _⟩ :=
    Net.Runs.ends hruns hleft hright
  obtain ⟨key, hprepare, hlen, rfl, hkey⟩ := sender_ends hl
  obtain ⟨key', recvFp, bs, hfree, hprocess, rfl, rfl, values, hlen', rfl,
    hkey'⟩ := receiver_ends hr
  have hsent := hend rfl
  have hpublic := length_publicBytes t.senderDraws.exponents
  obtain ⟨rfl, rfl⟩ := List.append_inj hsent (hlen'.trans hpublic.symm)
  have hread : ul = publicBytes t.receiverDraws.exponents (List.finRange 4) := by
    apply hul.eq_of_length
    rw [hlen, length_publicBytes]
  have hsame : key' = key := by
    rw [hkey' t.senderDraws.exponents rfl,
      hkey t.receiverDraws.exponents hread, agreedKey_comm]
  rw [hsame] at hprocess
  exact ⟨key, recvFp, hprepare, hfree, hprocess⟩

/-- The files that are lost: those `comp_file` makes a container of, with a
length that padding takes to the first one without a batch. -/
def Loses (lzma : Lzma) (x : Bytes) : Prop :=
  (x.length / 64000000 + 1) % 2 ^ 32 ≠ 0 ∧ LastReads compPlan x.length ∧
    ∃ n, containerSize lzma x = some n ∧ PadsToNoBatch n

section Kept

variable {lzma : Lzma} {env₁ env₂ env₃ env₄ : Env} {key : Key}
  {x c e d y : FileData}

theorem FileData.clip_of_bytes (x : FileData) : FileData.clip x.bytes = x :=
  FileData.ext (FileData.clip_bytes x.length_lt)

/-- `enc_file` does not return zero on an empty file. -/
theorem encFileOf_ne_nil (h : exitCode (encFileOf env₁ x key) = some 0) :
    x.bytes ≠ [] := by
  intro hnil
  have hsize : x.size = 0 := by rw [FileData.size, hnil, List.length_nil]
  rcases encFileOf_zero h with ⟨hpos, _⟩ | ⟨hnb, _⟩
  · rw [hsize] at hpos
    exact hpos rfl
  · rw [hsize] at hnb
    cases hnb

/-- What goes through all four functions with return code zero comes out as it
went in. -/
theorem chain_kept (hundoes : lzma.Undoes) (hkept : ¬ Loses lzma x.bytes)
    (hcomp : exitCode (compFileOf lzma env₁ x) = some 0)
    (hc : c.bytes = (finalState (compFileOf lzma env₁ x)).out)
    (henc : exitCode (encFileOf env₂ c key) = some 0)
    (he : e.bytes = (finalState (encFileOf env₂ c key)).out)
    (hdec : exitCode (decFileOf env₃ e key) = some 0)
    (hd : d.bytes = (finalState (decFileOf env₃ e key)).out)
    (huncomp : exitCode (uncompFileOf lzma env₄ d) = some 0)
    (hy : y.bytes = (finalState (uncompFileOf lzma env₄ d)).out) : y = x := by
  rcases compFileOf_zero hcomp with ⟨hnb, hreads, hholds⟩ | ⟨_, hnil⟩
  · rw [← hc] at hholds
    have hsize : ¬ PadsToNoBatch c.size := fun hpads =>
      hkept ⟨hnb, hreads, c.size, hholds.mapM_storedSize, hpads⟩
    have hsame : d.bytes = c.bytes :=
      hd.trans (encFileOf_decFileOf_kept hsize henc he hdec)
    have hdesc := hholds.describes hnb hreads
    obtain ⟨_, hplain⟩ := hdesc.usable hundoes x.length_lt
    apply FileData.ext
    rw [hy, (uncompFileOf_zero huncomp).2, hsame, hplain]
  · exact absurd (hc.trans hnil) (encFileOf_ne_nil henc)

/-- Files that are not lost are delivered by every session. -/
theorem keeps_of (hundoes : lzma.Undoes) (hkept : ¬ Loses lzma x.bytes) :
    Keeps lzma x := by
  intro t hsource preparedFp fs fs' hends
  obtain ⟨key, recvFp, hprepare, hfree, hprocess⟩ := Session.endsWith_inv hends
  obtain ⟨hfresh, c, e, hcomp, hc, henc, he, rfl⟩ :=
    prepareFile_ok hsource hprepare
  have hreceived : FileData.clip
      (((t.senderFs.write preparedFp e).content preparedFp).getD []) = e := by
    rw [content_of_some FileSystem.write_self]
    exact e.clip_of_bytes
  rw [hreceived] at hprocess
  obtain ⟨d, y, hdec, hd, huncomp, hy, rfl⟩ :=
    processReceivedFile_ok FileSystem.write_self hprocess
  rw [FileSystem.delete_write hfree,
    chain_kept hundoes hkept hcomp hc henc he hdec hd huncomp hy]
  have hne : t.source ≠ preparedFp := by
    intro heq
    rw [← heq, hsource] at hfresh
    cases hfresh
  refine ⟨FileSystem.write_self, ?_, ?_, hfresh, fun fp hfp => ?_, fun fp hfp => ?_⟩
  · rw [FileSystem.write_of_ne hne]
    exact hsource
  · rw [FileSystem.write_self]
    rfl
  · exact FileSystem.write_of_ne hfp
  · exact FileSystem.write_of_ne hfp

end Kept

section Runs

variable {α γ : Type} {n fuel : Nat} {bs : Bytes}

/-- The sender may send all of the file at once. -/
theorem sendBlocks_runs (hfuel : bs.length ≤ fuel) (hn : 0 < n)
    (k : PUnit → Proc Byte α) (q : Proc Byte γ) (sent : Bytes)
    (inp : Duplex.Stream Byte) :
    Net.Runs ⟨(sendBlocks n fuel bs).bind k, q, ⟨sent, false, false⟩, inp⟩
      ⟨k ⟨⟩, q, ⟨sent ++ bs, false, false⟩, inp⟩ := by
  induction fuel generalizing bs sent with
  | zero =>
      obtain rfl := List.eq_nil_of_length_eq_zero (Nat.le_zero.mp hfuel)
      rw [List.append_nil]
      exact .refl
  | succ fuel ih =>
      rw [sendBlocks]
      split
      · rename_i hnil
        rw [hnil, List.append_nil]
        exact .refl
      · rename_i hne
        have hpos := List.length_pos_iff.mpr hne
        have hrest := @ih (bs.drop n) (by rw [List.length_drop]; omega)
          (sent ++ bs.take n)
        rw [List.append_assoc, List.take_append_drop] at hrest
        exact .head (.left (.send rfl)) hrest

/-- A file that is sent can be received as a whole. -/
theorem sendFile_runs (role : DhRole) (hne : bs ≠ []) (a : α) (l : Bytes → γ) :
    ∃ s, Net.Runs (.start ((sendFile role bs).bind fun _ => .done a)
        (receiveFile.bind fun got => .done (l got))) s ∧
      s.left = .done a ∧ s.right = .done (l bs) := by
  have hpos : 0 < blockSize role := by cases role <;> decide
  have hsend := sendBlocks_runs (Nat.le_refl bs.length) hpos
    (fun _ => .close (.done a)) (.collect [] fun got => .done (l got)) []
    .empty
  have hassoc : (sendFile role bs).bind (fun _ => Proc.done a) =
      (sendBlocks (blockSize role) bs.length bs).bind
        fun _ => .close (.done a) := by
    rw [sendFile, Proc.bind_assoc]
    rfl
  refine ⟨⟨.done a, .done (l bs), ⟨[], true, true⟩, .empty⟩, ?_, rfl, rfl⟩
  rw [hassoc]
  refine hsend.trans (.head (.left .close) ?_)
  refine .head (.right (.collect hne (List.append_nil bs).symm)) ?_
  exact .single (.right (.finish rfl rfl))

end Runs

section Lost

variable {lzma : Lzma} {key : Key} {x : FileData}

/-- In an unfailing environment a lost file goes through all four functions with
return code zero, and comes out empty. -/
theorem chain_lost (key : Key) (env : ReliableEnv) (h : Loses lzma x.bytes) :
    ∃ c e d y : FileData,
      exitCode (compFileOf lzma env.toEnv x) = some 0 ∧
      c.bytes = (finalState (compFileOf lzma env.toEnv x)).out ∧
      exitCode (encFileOf env.toEnv c key) = some 0 ∧
      e.bytes = (finalState (encFileOf env.toEnv c key)).out ∧
      e.bytes ≠ [] ∧
      exitCode (decFileOf env.toEnv e key) = some 0 ∧
      d.bytes = (finalState (decFileOf env.toEnv e key)).out ∧
      exitCode (uncompFileOf lzma env.toEnv d) = some 0 ∧
      y.bytes = (finalState (uncompFileOf lzma env.toEnv d)).out ∧
      y.bytes = [] := by
  obtain ⟨hnb, hreads, n, hsize, hpads⟩ := h
  obtain ⟨sizes, hsizes, _⟩ := Option.map_eq_some_iff.mp hsize
  obtain ⟨hcomp, hholds⟩ :=
    compFileOf_reliable (not_rejects_of_mapM hsizes) env hnb hreads
  have hlen := Option.some.inj (hholds.mapM_storedSize.symm.trans hsize)
  have hsmall : n < 2 ^ 63 := by
    unfold PadsToNoBatch at hpads
    omega
  let c : FileData := ⟨_, hlen ▸ hsmall⟩
  have hcPads : PadsToNoBatch c.size := by
    rw [FileData.size, hlen]
    exact hpads
  obtain ⟨henc, e, he, hdec, hnil⟩ := @encFileOf_decFileOf_lost key c env hcPads
  have hne : e.bytes ≠ [] := fun heNil => decFileOf_empty heNil hdec
  have husable : AllUsable lzma (FileData.mk [] (by decide)).bytes :=
    ⟨List.forall_mem_nil _, rfl⟩
  obtain ⟨huncomp, hplain⟩ := uncompFileOf_reliable env husable
  exact ⟨c, e, ⟨[], by decide⟩, ⟨[], by decide⟩, hcomp, rfl, henc, he, hne, hdec,
    hnil.symm, huncomp, hplain.symm, rfl⟩

/-- When the preparation and the processing go well with the key that is agreed
on, there is a session that ends well. -/
theorem Session.endsWith_of {t : Session} {preparedFp recvFp : Path}
    {fs fs' : FileSystem} {e : FileData} (hrole : t.role = .client)
    (hprepare : prepareFile lzma t.senderEnv t.source
      (agreedKey t.senderDraws.exponents t.receiverDraws.exponents)
        t.senderFs = .ok preparedFp fs)
    (hprepared : fs preparedFp = some e) (hne : e.bytes ≠ [])
    (hname : tempRecvName t.dest t.recvDigits t.receiverFs =
      .ok recvFp t.receiverFs)
    (hprocess : processReceivedFile lzma t.receiverEnv t.dest recvFp
      (agreedKey t.senderDraws.exponents t.receiverDraws.exponents)
        (t.receiverFs.write recvFp e) =
        .ok ⟨⟩ fs') :
    t.EndsWith lzma preparedFp fs fs' := by
  obtain ⟨s, hfile, hleft, hright⟩ := sendFile_runs t.role hne
    (EStateM.Result.ok preparedFp fs : EStateM.Result Exit FileSystem Path)
    fun bs => processReceivedFile lzma t.receiverEnv t.dest recvFp
      (agreedKey t.senderDraws.exponents t.receiverDraws.exponents)
      (t.receiverFs.write recvFp (.clip bs))
  refine ⟨s, ?_, hleft, ?_⟩
  · rw [Session.start, sender, receiver, hrole]
    refine ((doDh_runs t.senderDraws t.receiverDraws).andThen _ _).trans ?_
    simp only [Net.andThen, Net.start, Proc.bind, hprepare, hname,
      content_of_some hprepared, Option.getD_some]
    rw [hrole] at hfile
    exact hfile
  · rw [hright, e.clip_of_bytes, hprocess]

/-- A host that gives every temporary name the same digits. -/
def putPrepareEnv : PrepareEnv :=
  ⟨inOrderEnv.toEnv, inOrderEnv.toEnv, some "aaaaaa", some "aaaaaa", 0, 0⟩

def putProcessEnv : ProcessEnv :=
  ⟨inOrderEnv.toEnv, inOrderEnv.toEnv, some "aaaaaa", 0, 0⟩

/-- A client puts the file `"f"` on a server that has no files. -/
def putSession (x : FileData) : Session where
  role := .client
  senderDraws := Vector.replicate 4 0
  receiverDraws := Vector.replicate 4 0
  senderEnv := putPrepareEnv
  receiverEnv := putProcessEnv
  recvDigits := some "aaaaaa"
  source := "f"
  dest := "f"
  senderFs := FileSystem.write (fun _ => none) "f" x
  receiverFs := fun _ => none

theorem putSession_senderFs (x : FileData) :
    (putSession x).senderFs = FileSystem.write (fun _ => none) "f" x := rfl

/-- A lost file is put as an empty one. -/
theorem putSession_endsWith (h : Loses lzma x.bytes) :
    ∃ preparedFp fs fs' y, (putSession x).EndsWith lzma preparedFp fs fs' ∧
      fs' "f" = some y ∧ y.bytes = [] := by
  let key := agreedKey (Draws.exponents (Vector.replicate 4 0))
    (Draws.exponents (Vector.replicate 4 0))
  let cOutFp : Path := "f" ++ ".comp" ++ "-" ++ "aaaaaa"
  let recvFp : Path := "f" ++ ".comp" ++ ".enc" ++ "-" ++ "aaaaaa"
  obtain ⟨c, e, d, y, hcomp, hc, henc, he, hne, hdec, hd, huncomp, hy, hnil⟩ :=
    chain_lost key inOrderEnv h
  have hcFree : FileSystem.write (fun _ => none) "f" x cOutFp = none :=
    FileSystem.write_of_ne (by decide)
  have heFree :
      (FileSystem.write (fun _ => none) "f" x).write cOutFp c recvFp = none := by
    rw [FileSystem.write_of_ne (by decide)]
    exact FileSystem.write_of_ne (by decide)
  have hdFree : (putSession x).receiverFs.write recvFp e cOutFp = none :=
    FileSystem.write_of_ne (by decide)
  have hprepare := @prepareFile_of lzma key (.write (fun _ => none) "f" x) "f" x e
    putPrepareEnv c cOutFp recvFp FileSystem.write_self (mkstemp_of_free rfl hcFree)
    (mkstemp_of_free rfl heFree) hcomp hc henc he
  have hprocess := @processReceivedFile_of lzma key
    ((putSession x).receiverFs.write recvFp e) "f" recvFp e putProcessEnv d y cOutFp
    FileSystem.write_self (mkstemp_of_free rfl hdFree) hdec hd huncomp hy
  exact ⟨_, _, _, y, Session.endsWith_of rfl hprepare FileSystem.write_self hne rfl
    hprocess, FileSystem.write_self, hnil⟩

theorem lost_of (h : Loses lzma x.bytes) : ¬ Keeps lzma x := by
  intro hkeeps
  obtain ⟨preparedFp, fs, fs', y, hends, hdest, hnil⟩ := putSession_endsWith h
  obtain ⟨hsame, _⟩ :=
    hkeeps (putSession x) (by rw [putSession_senderFs]; exact FileSystem.write_self)
      preparedFp fs fs' hends
  obtain rfl : y = x := Option.some.inj (hdest.symm.trans hsame)
  rw [hnil] at h
  obtain ⟨_, hmod | hbig, _⟩ := h
  · exact hmod rfl
  · exact absurd hbig (by decide)

end Lost

/-- Every session that ends well delivers the file, exactly when its container is
not padded to a length without a batch. -/
theorem transfer_keeps_iff (lzma : Lzma) (hundoes : lzma.Undoes) (x : FileData) :
    Keeps lzma x ↔ ¬ Loses lzma x.bytes :=
  ⟨fun hkeeps hlost => lost_of hlost hkeeps, keeps_of hundoes⟩

theorem transfer_keeps_a : Keeps .storing fileOfA := by
  refine (transfer_keeps_iff .storing storing_undoes fileOfA).mpr ?_
  rintro ⟨_, _, n, hsize, hpads⟩
  have hcontainer : containerSize .storing fileOfA.bytes = some 18 := by decide
  obtain rfl := Option.some.inj (hcontainer.symm.trans hsize)
  exact absurd hpads.1 (by decide)

/-- A file of just under `2 ^ 56` bytes is lost when none of its chunks is
compressed. -/
theorem repeated_lost {lzma : Lzma} {chunk last : Bytes}
    (hchunk : chunk.length = 8000000) (hlast : last.length = 3088783)
    (hstored : storedSize lzma chunk = some (ecHeaderSize + chunk.length))
    (hstored' : storedSize lzma last = some (ecHeaderSize + last.length)) :
    Loses lzma (repeated 9007180112 chunk last) := by
  have hlen := length_repeated 9007180112 chunk last
  rw [hchunk, hlast] at hlen
  have hsize := @containerSize_repeated lzma 9007180112 chunk last hchunk
    (by omega) (by omega) hstored hstored'
  refine ⟨by omega, .inl ?_, _, hsize, ?_⟩
  · change (repeated 9007180112 chunk last).length % 8000000 ≠ 0
    omega
  · unfold PadsToNoBatch ecHeaderSize
    omega

/-- Whichever library compresses the chunks, some file is lost. -/
theorem transfer_loses_repeated :
    ¬ ∃ lzma : Lzma, lzma.Undoes ∧
      (∀ chunk : Bytes, chunk.length ≤ 8000000 →
        lzma.compress (roomFor chunk.length) chunk ≠ none) ∧
      ∀ x : FileData, Keeps lzma x := by
  rintro ⟨lzma, hundoes, hpacks, hkeeps⟩
  obtain ⟨chunk, hchunk, hstored⟩ := @exists_storedRaw lzma 8000000 hundoes
    fun chunk hlen => hpacks chunk (by omega)
  obtain ⟨last, hlast, hstored'⟩ := @exists_storedRaw lzma 3088783 hundoes
    fun chunk hlen => hpacks chunk (by omega)
  have hlen := length_repeated 9007180112 chunk last
  rw [hchunk, hlast] at hlen
  exact lost_of (x := ⟨repeated 9007180112 chunk last, by omega⟩)
    (repeated_lost hchunk hlast hstored hstored') (hkeeps _)

end EcFtp
