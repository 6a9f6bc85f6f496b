import PaqusNetwork.Wallet.Withdraw

namespace PaqusNetwork

open Effect Numeric

variable (platform : Platform)

def gatewayClient : HttpClient where
  headersText := "failed to decode gateway response headers: "
  timedOutText := "failed to read gateway response: timed out waiting for response"
  failedText := "failed to read gateway response: "
  decodeText := "failed to decode gateway response: "
  accept response parts := do
    let some (head, body) := parts | throw ("invalid gateway response: " ++ response)
    if !"HTTP/1.1 200".toList.isPrefixOf head && !"HTTP/1.1 201".toList.isPrefixOf head then
      throw ("gateway returned error: " ++ String.ofList body)
    else return String.ofList body

/-- The bytes that the stream brings, however it is split. -/
def received : List ReadEvent → List UInt8
  | .data (byte :: bytes) :: events => byte :: bytes ++ received events
  | _ => []

def closed : List ReadEvent → Bool
  | [] | .data [] :: _ => true
  | .data (_ :: _) :: events => closed events
  | _ => false

structure Declares (response : List UInt8) (headerEnd length : Nat) : Prop where
  position : Text.position headerEndMark response = some headerEnd
  headers : ∃ headers, decodeUtf8 (response.take headerEnd) = some headers ∧
    (Text.lines headers.toList).findSome? contentLength = some length

/-- No body that is returned is shorter than its headers declare, and no sum overflows. -/
def WholeBodies (read : List ReadEvent → Except String String) (events : List ReadEvent) : Prop :=
  ∀ headerEnd length, Declares (received events) headerEnd length →
    headerEnd + 4 + length ≤ u64Max ∧ ∀ body, read events = .ok body → length ≤ body.utf8ByteSize

/-- A stream that is closed behind a response that the client accepts has brought all that it declares. -/
def Delivered (client : HttpClient) (events : List ReadEvent) : Prop :=
  ∀ headerEnd length, Declares (received events) headerEnd length → headerEnd + 4 + length ≤ u64Max ∧
    ∀ text body, closed events = true → decodeUtf8 (received events) = some text →
      client.accept text (Text.splitOnce "\r\n\r\n".toList text.toList) = .ok body →
      headerEnd + 4 + length ≤ (received events).length

variable {platform} {client : HttpClient} {response bytes : List UInt8} {events : List ReadEvent}
  {headerEnd length : Nat}

theorem take_headers (h : Text.position headerEndMark response = some headerEnd) (rest : List UInt8) :
    (response ++ rest).take headerEnd = response.take headerEnd := by
  obtain ⟨before, after, rfl, rfl⟩ := Text.position_split h
  simp only [List.append_assoc, List.take_left]

theorem Declares.of_append {rest : List UInt8} (h : Declares (response ++ rest) headerEnd length)
    (hfound : Text.position headerEndMark response ≠ none) : Declares response headerEnd length := by
  obtain ⟨found, hfound⟩ := Option.ne_none_iff_exists'.mp hfound
  have hsame := h.position
  rw [Text.position_append hfound] at hsame
  cases hsame
  exact ⟨hfound, take_headers hfound rest ▸ h.headers⟩

namespace HttpClient

theorem responseBodyComplete_append (h : client.responseBodyComplete platform response ≠ .ok false)
    (rest : List UInt8) : client.responseBodyComplete platform (response ++ rest) =
      client.responseBodyComplete platform response := by
  unfold responseBodyComplete at h ⊢
  cases hposition : Text.position headerEndMark response with
  | none => simp [hposition] at h
  | some headerEnd =>
    simp only [hposition, Text.position_append hposition, take_headers hposition] at h ⊢
    cases hheaders : decodeUtf8 (response.take headerEnd) with
    | none => rfl
    | some headers =>
      cases hlength : (Text.lines headers.toList).findSome? contentLength with
      | none => simp [hheaders, hlength] at h
      | some length =>
        simp only [hheaders, hlength] at h ⊢
        cases hstart : addUsize platform headerEnd 4 with
        | error => rfl
        | ok bodyStart =>
          cases hend : addUsize platform bodyStart length with
          | error => simp [bind, Except.bind, hend]
          | ok bodyEnd =>
            have hle : bodyEnd ≤ response.length := by
              by_contra hlong
              exact h (by simp [bind, Except.bind, pure, Except.pure, hstart, hend, hlong])
            simp [bind, Except.bind, pure, Except.pure, hend, hle, Nat.le_add_right_of_le hle]

theorem responseBodyComplete_declared (h : Declares response headerEnd length)
    (hfits : headerEnd + 4 + length ≤ u64Max) : client.responseBodyComplete platform response =
      .ok (decide (headerEnd + 4 + length ≤ response.length)) := by
  have hstart : addUsize platform headerEnd 4 = .ok (headerEnd + 4) := if_pos (by omega)
  have hend : addUsize platform (headerEnd + 4) length = .ok (headerEnd + 4 + length) := if_pos hfits
  obtain ⟨headers, hheaders, hlength⟩ := h.headers
  simp only [responseBodyComplete, h.position, hheaders, hlength, hstart]
  simp [bind, Except.bind, pure, Except.pure, hend]

/-- The loop ends with bytes that are complete, or at the end of the stream with all of it, or it fails. -/
theorem readResponse_cases (h : client.responseBodyComplete platform response = .ok false) :
    (∃ bytes, client.readResponse platform events response = .ok bytes ∧
      client.responseBodyComplete platform bytes = .ok true ∧ bytes <+: response ++ received events) ∨
    client.responseBodyComplete platform (response ++ received events) = .ok false ∧ closed events = true ∧
      client.readResponse platform events response = .ok (response ++ received events) ∨
    client.responseBodyComplete platform (response ++ received events) ≠ .ok true ∧
      ∃ error, client.readResponse platform events response = .error error ∧ (closed events = true →
        client.responseBodyComplete platform (response ++ received events) = .error error) := by
  induction events generalizing response with
  | nil => exact .inr (.inl ⟨by simpa [received] using h, rfl, by simp [received, readResponse]⟩)
  | cons event events ih =>
    cases event with
    | failed error => exact .inr (.inr ⟨by simp [received, h], _, rfl, by simp [closed]⟩)
    | timedOut =>
      refine .inr (.inr ⟨by simp [received, h], client.timedOutText, ?_, by simp [closed]⟩)
      rw [readResponse, h]
      rfl
    | data bytes =>
      cases bytes with
      | nil => exact .inr (.inl ⟨by simpa [received] using h, rfl, by simp [received, readResponse]⟩)
      | cons byte bytes =>
        rw [readResponse, received, closed, ← List.append_assoc]
        cases hnow : client.responseBodyComplete platform (response ++ byte :: bytes) with
        | error error =>
          rw [responseBodyComplete_append (by simp [hnow]), hnow]
          exact .inr (.inr ⟨by simp, error, rfl, fun _ => rfl⟩)
        | ok complete =>
          cases complete with
          | true => exact .inl ⟨_, rfl, hnow, List.prefix_append _ _⟩
          | false => exact ih hnow

theorem reads_complete_iff : (∃ bytes, client.readResponse platform events [] = .ok bytes ∧
      client.responseBodyComplete platform bytes = .ok true) ↔
    client.responseBodyComplete platform (received events) = .ok true := by
  rcases @readResponse_cases platform client [] events rfl with
    ⟨bytes, hread, hcomplete, rest, hrest⟩ | ⟨hall, -, hread⟩ | ⟨hall, error, hread, -⟩
  · refine iff_of_true ⟨bytes, hread, hcomplete⟩ ?_
    rw [← List.nil_append (received events), ← hrest, responseBodyComplete_append (by simp [hcomplete]), hcomplete]
  · simp [hread]
  · simpa [hread] using hall

end HttpClient

theorem decodeUtf8_eq_some {text : String} (h : decodeUtf8 bytes = some text) :
    text.toList.flatMap String.utf8EncodeChar = bytes := by
  unfold decodeUtf8 String.fromUTF8? at h
  split at h
  next hvalid =>
    cases h
    have hencoded := congrArg (fun array => array.data.toList)
      (String.utf8Encode_toList (b := String.fromUTF8 _ hvalid))
    simpa [List.utf8Encode, String.fromUTF8] using hencoded
  next => cases h

/-- The text is split where the bytes are: what stands before the mark is a text, and a mark in it would be found
in the bytes. -/
theorem Declares.splitOnce {text : String} (h : Declares bytes headerEnd length)
    (htext : decodeUtf8 bytes = some text) :
    ∃ head body, Text.splitOnce "\r\n\r\n".toList text.toList = some (head, body) ∧
      headerEnd + 4 + (String.ofList body).utf8ByteSize = bytes.length := by
  have hmark : "\r\n\r\n".toList.flatMap String.utf8EncodeChar = headerEndMark := by decide
  have hall := decodeUtf8_eq_some htext
  obtain ⟨headers, hheaders, -⟩ := h.headers
  obtain ⟨start, after, rfl, rfl⟩ := Text.position_split h.position
  rw [List.append_assoc, List.take_left] at hheaders
  have hstart := decodeUtf8_eq_some hheaders
  have hcut : text.toList.flatMap String.utf8EncodeChar =
      ((headers.toList ++ "\r\n\r\n".toList).flatMap String.utf8EncodeChar) ++ after := by
    rw [List.flatMap_append, hstart, hmark, hall]
  obtain ⟨rest, hrest, -⟩ := Text.utf8_cancel hcut
  obtain ⟨index, hle, hindex⟩ := Text.position_le headers.toList "\r\n\r\n".toList rest
  rw [← hrest] at hindex
  obtain ⟨head, body, rfl, hsplit⟩ := Text.position_split hindex
  have hencoded := hall
  rw [hsplit, List.flatMap_append, List.flatMap_append, hmark] at hencoded
  obtain ⟨first, hfirst, hfound⟩ := Text.position_le (head.flatMap String.utf8EncodeChar) headerEndMark
    (body.flatMap String.utf8EncodeChar)
  rw [hencoded, h.position] at hfound
  cases hfound
  obtain ⟨others, hothers⟩ : head <+: headers.toList :=
    List.prefix_of_prefix_length_le ⟨_, (hsplit.trans (List.append_assoc _ _ _)).symm⟩
      ⟨_, (hrest.trans (List.append_assoc _ _ _)).symm⟩ hle
  rw [← hothers, List.flatMap_append] at hstart
  have hends := congrArg List.length hstart
  have hlengths := congrArg List.length hencoded
  have hbody : (String.ofList body).utf8ByteSize = (body.flatMap String.utf8EncodeChar).length := by
    rw [← String.size_toByteArray, String.toByteArray_ofList, List.utf8Encode, List.size_toByteArray]
  have hfour : headerEndMark.length = 4 := rfl
  refine ⟨head, body, by rw [Text.splitOnce, hindex, hsplit]; simp, ?_⟩
  simp only [List.length_append] at hends hlengths ⊢
  omega

/-- The body that a client returns for a response with headers is what stands behind them. -/
def HttpClient.TakesBody (client : HttpClient) : Prop :=
  ∀ response head body text, client.accept response (some (head, body)) = .ok text → text = String.ofList body

theorem walletClient_takesBody : (walletClient platform).TakesBody := by
  intro response head body text h
  dsimp only [walletClient, Option.getD_some] at h
  split at h <;> cases h
  rfl

theorem gatewayClient_takesBody : gatewayClient.TakesBody := by
  intro response head body text h
  dsimp only [gatewayClient] at h
  split at h <;> cases h
  rfl

theorem HttpClient.TakesBody.wholeBodies_iff (h : client.TakesBody) :
    WholeBodies (client.readHttpResponse platform) events ↔ Delivered client events := by
  have hsize : ∀ {bytes headerEnd length text body}, Declares bytes headerEnd length → decodeUtf8 bytes = some text →
      client.accept text (Text.splitOnce "\r\n\r\n".toList text.toList) = .ok body →
      headerEnd + 4 + body.utf8ByteSize = bytes.length := by
    intro bytes headerEnd length text body hdeclares htext haccept
    obtain ⟨head, rest, hsplit, hlength⟩ := hdeclares.splitOnce htext
    rw [hsplit] at haccept
    rw [h _ _ _ _ haccept, hlength]
  have hcases := @readResponse_cases platform client [] events rfl
  rw [List.nil_append] at hcases
  refine forall₃_congr fun headerEnd length hdeclares => and_congr_right fun hfits => ?_
  have hverdict := @responseBodyComplete_declared platform client _ _ _ hdeclares hfits
  constructor
  · intro hbody text body hclosed htext haccept
    rcases hcases with ⟨bytes, -, hcomplete, rest, hrest⟩ | ⟨-, -, hread⟩ | ⟨-, _, -, herror⟩
    · rw [← hrest, responseBodyComplete_append (by simp [hcomplete]), hcomplete, hrest] at hverdict
      simpa using hverdict
    · have hwhole := hbody body (except_bind_eq_ok.mpr ⟨_, hread, by simpa only [htext] using haccept⟩)
      have hlength := hsize hdeclares htext haccept
      omega
    · cases hverdict.symm.trans (herror hclosed)
  · intro hend body hbody
    obtain ⟨bytes, hbytes, hrest⟩ := except_bind_eq_ok.mp hbody
    cases htext : decodeUtf8 bytes with
    | none => rw [htext] at hrest; cases hrest
    | some text =>
      simp only [htext] at hrest
      rcases hcases with ⟨_, hread, hcomplete, rest, hprefix⟩ | ⟨-, hclosed, hread⟩ | ⟨-, _, hread, -⟩
      all_goals cases hbytes.symm.trans hread
      · have hfound : Text.position headerEndMark bytes ≠ none := fun hnone => by
          simp [responseBodyComplete, hnone] at hcomplete
        rw [← hprefix] at hdeclares
        have hdeclares' := hdeclares.of_append hfound
        have hwhole : headerEnd + 4 + length ≤ bytes.length := by
          simpa [responseBodyComplete_declared hdeclares' hfits] using hcomplete
        have hlength := hsize hdeclares' htext hrest
        omega
      · have hwhole := hend text body hclosed htext hrest
        have hlength := hsize hdeclares htext hrest
        omega

/-- Either client returns whole bodies for a stream and never overflows if and only if no accepted response is cut
short by a close and no declared end is out of range; what counts as complete does not depend on the split. -/
theorem responses_whole_iff (platform : Platform) (events : List ReadEvent) :
    (WholeBodies (readHttpResponse platform) events ↔ Delivered (walletClient platform) events) ∧
    (WholeBodies (gatewayClient.readHttpResponse platform) events ↔ Delivered gatewayClient events) ∧
    ∀ client : HttpClient, (∃ bytes, client.readResponse platform events [] = .ok bytes ∧
      client.responseBodyComplete platform bytes = .ok true) ↔
        client.responseBodyComplete platform (received events) = .ok true := by
  exact ⟨walletClient_takesBody.wholeBodies_iff, gatewayClient_takesBody.wholeBodies_iff,
    fun _ => HttpClient.reads_complete_iff⟩

/-- Five bytes are declared and two of them are sent. -/
def Reference.shortResponse : List UInt8 :=
  "HTTP/1.1 200 OK\r\ncontent-length: 5\r\n\r\nok".toList.map fun char => char.toUInt8

theorem Reference.short_body_returned : Declares shortResponse 34 5 ∧
    readHttpResponse ⟨true, fun _ => .error "", .ok, fun _ => ""⟩ [.data shortResponse] = .ok "ok" :=
  ⟨⟨by decide +kernel, "HTTP/1.1 200 OK\r\ncontent-length: 5", by decide +kernel, by decide +kernel⟩,
    by decide +kernel⟩

end PaqusNetwork
