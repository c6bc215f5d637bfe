import VelocityMcp.Document.Safety
import VelocityMcp.Lib.Digests

/-!
# Document.Signature — signed documents (`nda_document.rs`)

`signature_exact_iff`: when signatures are detected exactly.
-/

namespace VelocityMcp.Document

open Lib

/-- `SIGNATURE_SECTION_SIZE`: a length, a signature and a public key. -/
def signatureSectionSize : ℕ := 4 + 64 + 32

structure NdaSignature where
  signature : Bytes
  publicKey : Bytes
deriving DecidableEq, Repr

/-- An ideal Ed25519: what a key has signed verifies under its public key. -/
structure Ed25519 where
  SigningKey : Type
  VerifyingKey : Type
  sign : SigningKey → Bytes → Bytes
  publicKey : SigningKey → Bytes
  fromBytes : Bytes → Except String VerifyingKey
  verify : VerifyingKey → Bytes → Bytes → Except String Unit
  length_sign : ∀ key message, (sign key message).length = 64
  length_publicKey : ∀ key, (publicKey key).length = 32
  verify_sign : ∀ key message, ∃ verifyingKey, fromBytes (publicKey key) = .ok verifyingKey ∧
    verify verifyingKey message (sign key message) = .ok ()

/-! ## The functions -/

/-- A signature section of 100 bytes stands after the string pool. -/
def hasSignature (data : Bytes) : Outcome String Bool :=
  if data.length < headerSize + signatureSectionSize then .ok false
  else match NdaDocument.read data with
  | .ok _ => do
    let sigLen ← leAt data (data.length - signatureSectionSize) 4
    .ok (sigLen = 64)
  | .err _ => .ok false
  | .panic => .panic

def readSignature (data : Bytes) : Outcome String (Option NdaSignature) := do
  let signed ← hasSignature data
  if ¬ signed then .ok none
  else do
    let sigStart := data.length - signatureSectionSize
    let sigLen ← leAt data sigStart 4
    if sigLen ≠ 64 then .err "Invalid signature section length"
    else do
      let signature ← slice data (sigStart + 4) (sigStart + 68)
      let publicKey ← slice data (sigStart + 68) (sigStart + 100)
      .ok (some ⟨signature, publicKey⟩)

def verifySignature (ed : Ed25519) (data : Bytes) : Outcome String Unit := do
  match ← readSignature data with
  | none => .err "Document is not signed"
  | some ndaSig =>
    let signedData ← slice data 0 (data.length - signatureSectionSize)
    let verifyingKey ← (Outcome.ofExcept (ed.fromBytes ndaSig.publicKey)).mapErr fun e => s!"Invalid public key: {e}"
    (Outcome.ofExcept (ed.verify verifyingKey signedData ndaSig.signature)).mapErr fun e =>
      s!"Signature verification failed: {e}"

def signatureSection (ed : Ed25519) (key : ed.SigningKey) (data : Bytes) : Bytes :=
  leBytes 4 64 ++ (ed.sign key data ++ ed.publicKey key)

def compileSigned (sha256 : Bytes → Bytes) (ed : Ed25519) (key : ed.SigningKey) (c : NdaCompiler) :
    Outcome String Bytes := do
  let data ← c.compile sha256
  .ok (data ++ signatureSection ed key data)

variable {ed : Ed25519} {key : ed.SigningKey} {data : Bytes}

theorem length_signatureSection (ed : Ed25519) (key : ed.SigningKey) (data : Bytes) :
    (signatureSection ed key data).length = signatureSectionSize := by
  rw [signatureSection, List.length_append, List.length_append, length_leBytes, ed.length_sign, ed.length_publicKey]
  rfl

/-! ## Signed bytes -/

theorem at_signatureSection (ed : Ed25519) (key : ed.SigningKey) (data : Bytes) :
    At (data ++ signatureSection ed key data) data.length (leBytes 4 64) ∧
      At (data ++ signatureSection ed key data) (data.length + 4) (ed.sign key data) ∧
      At (data ++ signatureSection ed key data) (data.length + 68) (ed.publicKey key) := by
  have hat : At (data ++ signatureSection ed key data) data.length (signatureSection ed key data) := by
    have h := at_append data (signatureSection ed key data) []
    rwa [List.append_nil] at h
  obtain ⟨hlen, h⟩ := at_append_iff.mp hat
  obtain ⟨hsign, hkey⟩ := at_append_iff.mp h
  rw [length_leBytes] at hsign hkey
  rw [ed.length_sign] at hkey
  exact ⟨hlen, hsign, hkey⟩

theorem sub_signatureSectionSize (ed : Ed25519) (key : ed.SigningKey) (data : Bytes) :
    (data ++ signatureSection ed key data).length - signatureSectionSize = data.length := by
  rw [List.length_append, length_signatureSection, Nat.add_sub_cancel]

theorem hasSignature_signed_iff (hsize : headerSize ≤ data.length) :
    hasSignature (data ++ signatureSection ed key data) = .ok true ↔
      ∃ doc, NdaDocument.read (data ++ signatureSection ed key data) = .ok doc := by
  have hlong : ¬ (data ++ signatureSection ed key data).length < headerSize + signatureSectionSize := by
    rw [List.length_append, length_signatureSection]
    omega
  have hmark := (at_signatureSection ed key data).1.leAt (ε := String) (by decide)
  rw [hasSignature, if_neg hlong, sub_signatureSectionSize, hmark]
  cases NdaDocument.read (data ++ signatureSection ed key data) with
  | ok doc => exact iff_of_true rfl ⟨doc, rfl⟩
  | err e =>
    refine iff_of_false (fun h => ?_) (fun ⟨_, h⟩ => nomatch h)
    exact absurd (Outcome.ok.inj h) (by decide)
  | panic => exact iff_of_false (fun h => nomatch h) (fun ⟨_, h⟩ => nomatch h)

theorem readSignature_signed (h : hasSignature (data ++ signatureSection ed key data) = .ok true) :
    readSignature (data ++ signatureSection ed key data) = .ok (some ⟨ed.sign key data, ed.publicKey key⟩) := by
  obtain ⟨hmark, hsign, hkey⟩ := at_signatureSection ed key data
  rw [readSignature, h, Outcome.ok_bind, if_neg (by decide), sub_signatureSectionSize]
  simp only
  rw [hmark.leAt (by decide), Outcome.ok_bind, if_neg (by decide), hsign.slice (by rw [ed.length_sign]),
    Outcome.ok_bind, hkey.slice (by rw [ed.length_publicKey]), Outcome.ok_bind]

theorem verifySignature_signed (h : hasSignature (data ++ signatureSection ed key data) = .ok true) :
    verifySignature ed (data ++ signatureSection ed key data) = .ok () := by
  obtain ⟨verifyingKey, hkey, hverify⟩ := ed.verify_sign key data
  have hdata : slice (ε := String) (data ++ signatureSection ed key data) 0 data.length = .ok data := by
    rw [slice_of_le (Nat.zero_le _) (by rw [List.length_append]; omega), List.drop_zero, Nat.sub_zero, List.take_left]
  rw [verifySignature, readSignature_signed h, Outcome.ok_bind, sub_signatureSectionSize]
  simp only
  rw [hdata, Outcome.ok_bind, hkey]
  simp only [Outcome.ofExcept_ok, Outcome.mapErr_ok, Outcome.ok_bind, hverify]

/-! ## Which documents are accepted -/

open NdaCompiler in
theorem limits_of_read {root pool : Bytes} {ts : List SemanticTriple} {cs : List DisplayCommand} {doc : NdaDocument}
    (hroot : root.length = 32) (h : NdaDocument.read (documentBytes root ts cs pool) = .ok doc) :
    ts.length ≤ maxTriples ∧ cs.length ≤ maxCommands ∧ pool.length ≤ maxStringPoolSize ∧
      ∀ c ∈ cs, 1 ≤ c.commandType ∧ c.commandType ≤ 4 := by
  have hat : NdaDocument.LaidOut (documentBytes root ts cs pool) root ts cs pool :=
    NdaDocument.laidOut_documentBytes hroot
  obtain ⟨tripleCount, commandCount, poolOffset, hread⟩ := NdaDocument.accepts_of_read h
  set data := documentBytes root ts cs pool
  have htcount := hread.tripleCountAt
  have hccount := hread.commandCountAt
  have hoffset := hread.poolOffsetAt
  rw [hat.tripleCountAt.leAt_mod, Outcome.ok.injEq] at htcount
  rw [hat.commandCountAt.leAt_mod, Outcome.ok.injEq] at hccount
  rw [hat.poolOffsetAt.leAt_mod, Outcome.ok.injEq] at hoffset
  have hsize := hat.size
  have hle := hread.poolLe
  have hinside := hread.inside
  have htle := hread.triplesLe
  have hcle := hread.commandsLe
  have hbounds : maxTriples = 1000000 ∧ maxCommands = 1000000 ∧ maxStringPoolSize = 100000000 ∧ headerSize = 52 ∧
      tripleSize = 12 ∧ commandSize = 17 := ⟨rfl, rfl, rfl, rfl, rfl, rfl⟩
  obtain ⟨hmt, hmc, hmp, hh, ht, hc⟩ := hbounds
  rw [ht, hc] at hsize hoffset
  -- a pool offset that has wrapped around would leave a pool of more than 2 ^ 32 bytes
  have hwrap : headerSize + ts.length * 12 + cs.length * 17 = poolOffset := by omega
  obtain rfl : ts.length = tripleCount := by omega
  obtain rfl : cs.length = commandCount := by omega
  have hcommands := hread.commandsRead
  rw [NdaDocument.readCommands_of_at hat.commandsAt, Outcome.ok.injEq] at hcommands
  refine ⟨htle, hcle, by omega, fun c hmem => ?_⟩
  have hchecked := hread.commandsChecked
  rw [← hcommands] at hchecked
  exact commandType_of_checkCommands hchecked c hmem

/-- What `compile` writes after the header: the triples, the commands and the pool. -/
def body (c : NdaCompiler) : Bytes :=
  c.register.1.flatMap NdaCompiler.tripleBytes ++
    (c.register.2.1.flatMap NdaCompiler.commandBytes ++ c.register.2.2.stringPoolData)

/-- Shorter than a signature section, or without the mark of one at its place. -/
def Unmarked (b : Bytes) : Prop :=
  b.length < signatureSectionSize ∨ leNat ((b.drop (b.length - signatureSectionSize)).take 4) ≠ 64

instance (b : Bytes) : Decidable (Unmarked b) := inferInstanceAs (Decidable (_ ∨ _))

/-- Which unsigned documents look like signed ones. -/
theorem hasSignature_unsigned_iff {b header : Bytes} {doc : NdaDocument} (hheader : header.length = headerSize)
    (hread : NdaDocument.read (header ++ b) = .ok doc) : hasSignature (header ++ b) = .ok false ↔ Unmarked b := by
  have hlen : (header ++ b).length = headerSize + b.length := by rw [List.length_append, hheader]
  rw [hasSignature, Unmarked]
  by_cases hshort : b.length < signatureSectionSize
  · rw [if_pos (by omega)]
    exact iff_of_true rfl (Or.inl hshort)
  have hsize : signatureSectionSize = 100 := rfl
  have hstart : (header ++ b).length - signatureSectionSize = header.length + (b.length - signatureSectionSize) := by
    omega
  have hmark : leAt (ε := String) (header ++ b) ((header ++ b).length - signatureSectionSize) 4 =
      .ok (leNat ((b.drop (b.length - signatureSectionSize)).take 4)) := by
    rw [leAt, slice_of_le (by omega) (by omega), hstart, List.drop_append, List.drop_of_length_le (by omega),
      Nat.add_sub_cancel_left, Nat.add_sub_cancel_left]
    rfl
  rw [if_neg (by omega), or_iff_right hshort, hread, hmark]
  simp only [Outcome.ok_bind, Outcome.ok.injEq, decide_eq_false_iff_not]

/-! ## What `compile` and `compile_signed` promise -/

def ReadsAlike (data signed : Bytes) : Prop :=
  ∃ doc doc', NdaDocument.read data = .ok doc ∧ NdaDocument.read signed = .ok doc' ∧ doc.triples = doc'.triples ∧
    doc.commands = doc'.commands ∧ ∀ offset ∈ storedOffsets doc, doc.getString offset = doc'.getString offset

/-- No signature is detected in the unsigned document; in the signed one it is, with the key it was made with, it
verifies, and nothing else has changed. -/
def SignatureExact (sha256 : Bytes → Bytes) (ed : Ed25519) (key : ed.SigningKey) (c : NdaCompiler) : Prop :=
  ∃ data signed, c.compile sha256 = .ok data ∧ compileSigned sha256 ed key c = .ok signed ∧
    hasSignature data = .ok false ∧ hasSignature signed = .ok true ∧
    (∃ sig, readSignature signed = .ok (some sig) ∧ sig.publicKey = ed.publicKey key) ∧
    verifySignature ed signed = .ok () ∧ ReadsAlike data signed

/-- The limits of the reader, with room for a signature section, and no mark of one 100 bytes before the end. -/
structure Signable (c : NdaCompiler) : Prop where
  triples : c.triples.length ≤ maxTriples
  commands : c.commands.length ≤ maxCommands
  types : ∀ info ∈ c.commands, 1 ≤ info.commandType ∧ info.commandType ≤ 4
  pool : c.register.2.2.stringPoolData.length + signatureSectionSize ≤ maxStringPoolSize
  unmarked : Unmarked (body c)

theorem readsAlike_append {r : Bytes} {doc doc' : NdaDocument} (h : NdaDocument.read data = .ok doc)
    (h' : NdaDocument.read (data ++ r) = .ok doc') (htriples : doc.triples = doc'.triples)
    (hcommands : doc.commands = doc'.commands) (hpool : doc'.stringPool = doc.stringPool ++ r) :
    ReadsAlike data (data ++ r) := by
  refine ⟨doc, doc', h, h', htriples, hcommands, fun offset hoffset => ?_⟩
  have hin := inPool_of_mem_storedOffsets h offset hoffset
  obtain ⟨hin', hbytes⟩ := hin.append r
  rw [← hpool] at hin' hbytes
  have hinvalid : invalidText doc'.stringPool offset = invalidText doc.stringPool offset :=
    congrArg (fun b => s!"Invalid UTF-8 in string pool at offset {offset.toNat}: {utf8ErrorText b}") hbytes
  rw [getString_of_inPool hin, getString_of_inPool hin', hbytes, hinvalid]

variable {sha256 : Bytes → Bytes} {c : NdaCompiler}

theorem exists_compiled (hsha : ∀ b, (sha256 b).length = 32) (c : NdaCompiler) :
    ∃ root header : Bytes, root.length = 32 ∧ header.length = headerSize ∧ c.compile sha256 = .ok (header ++ body c) ∧
      header ++ body c =
        NdaCompiler.documentBytes root c.register.1 c.register.2.1 c.register.2.2.stringPoolData := by
  obtain ⟨root, hroot, hlen⟩ := NdaCompiler.computeMerkleRoot_eq_ok hsha c
  set ts := c.register.1 with hts
  set cs := c.register.2.1 with hcs
  refine ⟨root, leBytes 4 documentMagic ++ (leBytes 4 0 ++ (root ++ (leBytes 4 ts.length ++ (leBytes 4 cs.length ++
    leBytes 4 (headerSize + ts.length * tripleSize + cs.length * commandSize))))), hlen, ?_, ?_, ?_⟩
  · simp only [List.length_append, length_leBytes, hlen]
    rfl
  · rw [NdaCompiler.compile_eq_ok hroot, NdaCompiler.documentBytes, body]
    simp only [List.append_assoc, hts, hcs]
  · rw [NdaCompiler.documentBytes, body]
    simp only [List.append_assoc, hts, hcs]

theorem SignatureExact.signable (hsha : ∀ b, (sha256 b).length = 32) (hc : c.PoolStored)
    (h : SignatureExact sha256 ed key c) : Signable c := by
  obtain ⟨data, signed, hcompile, hsigned, hplain, hmarked, -, -, doc, -, hread, -⟩ := h
  obtain ⟨root, header, hroot, hheader, hcompile', hbytes⟩ := exists_compiled hsha c
  rw [hcompile', Outcome.ok.injEq] at hcompile
  subst hcompile
  rw [compileSigned, hcompile', Outcome.ok_bind, Outcome.ok.injEq] at hsigned
  subst hsigned
  have hsize : headerSize ≤ (header ++ body c).length := by rw [List.length_append]; omega
  obtain ⟨doc', hread'⟩ := (hasSignature_signed_iff hsize).mp hmarked
  rw [hbytes, NdaCompiler.documentBytes_append] at hread'
  obtain ⟨htriples, hcommands, hpool, htypes⟩ := limits_of_read hroot hread'
  rw [List.length_append, length_signatureSection] at hpool
  obtain ⟨hts, hcs⟩ := NdaCompiler.register_spec hc (by omega)
  rw [← hts.length_eq] at htriples
  refine ⟨htriples, by rwa [← hcs.length_eq] at hcommands, fun info hinfo => ?_, hpool, ?_⟩
  · have hboth := (List.forall₂_and_left _ _).mpr ⟨htypes, hcs.flip⟩
    have hinfos : List.Forall₂ (fun info _ => (1 ≤ info.commandType ∧ info.commandType ≤ 4) ∧ True) c.commands
        c.register.2.1 := by
      refine (hboth.imp fun d info hd => ?_).flip
      rw [hd.2.1] at hd
      exact ⟨hd.1, trivial⟩
    exact ((List.forall₂_and_left _ _).mp hinfos).1 info hinfo
  · exact (hasSignature_unsigned_iff hheader hread).mp hplain

theorem Signable.signatureExact (hsha : ∀ b, (sha256 b).length = 32) (hc : c.PoolStored) (h : Signable c)
    (ed : Ed25519) (key : ed.SigningKey) : SignatureExact sha256 ed key c := by
  obtain ⟨root, header, hroot, hheader, hcompile, hbytes⟩ := exists_compiled hsha c
  set sec := signatureSection ed key (header ++ body c) with hsec
  have hpool : (c.register.2.2.stringPoolData ++ sec).length ≤ maxStringPoolSize := by
    rw [List.length_append, hsec, length_signatureSection]
    exact h.pool
  have hpool' : (c.register.2.2.stringPoolData ++ []).length ≤ maxStringPoolSize := by
    rw [List.length_append] at hpool ⊢
    exact (Nat.add_le_add_left (Nat.zero_le _) _).trans hpool
  have hread := NdaCompiler.read_compiled hc hroot h.triples h.commands h.types [] hpool'
  have hread' := NdaCompiler.read_compiled hc hroot h.triples h.commands h.types sec hpool
  rw [← hbytes] at hread hread'
  rw [List.append_nil, List.append_nil] at hread
  have hsize : headerSize ≤ (header ++ body c).length := by rw [List.length_append]; omega
  have hmarked : hasSignature (header ++ body c ++ sec) = .ok true := (hasSignature_signed_iff hsize).mpr ⟨_, hread'⟩
  refine ⟨header ++ body c, header ++ body c ++ sec, hcompile, ?_, ?_, hmarked, ?_, verifySignature_signed hmarked, ?_⟩
  · rw [compileSigned, hcompile, Outcome.ok_bind]
  · exact (hasSignature_unsigned_iff hheader hread).mpr h.unmarked
  · exact ⟨_, readSignature_signed hmarked, rfl⟩
  · exact readsAlike_append hread hread' rfl rfl rfl

/-- **Signatures are detected exactly** in the documents of a compiler exactly if it is signable. -/
theorem signature_exact_iff (hsha : ∀ b, (sha256 b).length = 32) (ed : Ed25519) (key : ed.SigningKey)
    (calls : List CompilerCall) :
    SignatureExact sha256 ed key (CompilerCall.run calls) ↔ Signable (CompilerCall.run calls) := by
  have hc := (CompilerCall.poolInv_run calls).poolStored
  exact ⟨fun h => h.signable hsha hc, fun h => h.signatureExact hsha hc ed key⟩

/-- Digests of the message, with the key in front of it and behind it. -/
noncomputable def keyedDigests (key message : Bytes) : Bytes :=
  Sha256.digest (key ++ message) ++ Sha256.digest (message ++ key)

/-- A scheme that accepts the signature of the message by the key and no other, if keys are public. -/
noncomputable def keyedEd25519 : Ed25519 where
  SigningKey := { b : Bytes // b.length = 32 }
  VerifyingKey := Bytes
  sign key message := keyedDigests key.1 message
  publicKey key := key.1
  fromBytes b := .ok b
  verify verifyingKey message signature :=
    if signature = keyedDigests verifyingKey message then .ok () else .error "signature error"
  length_sign key message := by rw [keyedDigests, List.length_append, Sha256.length_digest, Sha256.length_digest]
  length_publicKey key := key.2
  verify_sign key _ := ⟨key.1, rfl, if_pos rfl⟩

noncomputable def keyedKey : keyedEd25519.SigningKey := ⟨List.replicate 32 42, List.length_replicate⟩

def signedCalls : List CompilerCall :=
  [.addTriple "DOC_1" "TYPE" "SignedDoc", .addCommand ⟨1, 0xFFFFFFFF, 10, 20, 100, 50, "Signed Content"⟩]

/-- A triple and a command. -/
theorem signature_exact_iff_signed :
    SignatureExact Sha256.digest keyedEd25519 keyedKey (CompilerCall.run signedCalls) := by
  refine (signature_exact_iff Sha256.length_digest keyedEd25519 keyedKey signedCalls).mpr ⟨?_, ?_, ?_, ?_, ?_⟩
  · decide +kernel
  · decide +kernel
  · decide +kernel
  · decide +kernel
  · decide +kernel

/-- A string with the length of a signature at its start, and 96 more characters. -/
def markedText : String := String.ofList ('@' :: '\x00' :: '\x00' :: '\x00' :: List.replicate 96 'a')

def markedCalls : List CompilerCall := [.addTriple "DOC_1" "TYPE" markedText]

/-- The unsigned document of this string looks signed. -/
theorem signature_not_exact : ¬ ∀ (sha256 : Bytes → Bytes) (ed : Ed25519) (key : ed.SigningKey)
    (calls : List CompilerCall), (∀ b, (sha256 b).length = 32) →
      SignatureExact sha256 ed key (CompilerCall.run calls) := by
  intro h
  have hexact := h Sha256.digest keyedEd25519 keyedKey markedCalls Sha256.length_digest
  have hmarked : ¬ Unmarked (body (CompilerCall.run markedCalls)) := by decide +kernel
  exact hmarked (hexact.signable Sha256.length_digest (CompilerCall.poolInv_run markedCalls).poolStored).unmarked

end VelocityMcp.Document
