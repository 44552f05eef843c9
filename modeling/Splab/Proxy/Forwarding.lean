import Splab.Proxy.Requests

namespace Splab.Proxy
open CString

section Forwarding
variable {net : Net} {scratch : Scratch} {r : Request} {bytes : List UInt8}

/-- What the server gets of a request whose lengths can be read. -/
theorem forwarded_bytes (stream : net.input .client = (r.line ++ headerBlock r.fields ++ bytes).map some)
    (connects : net.connects = true) (clean : .failed ∉ net.writes .server) {post : Bool}
    (test : isPost (overwrite scratch.method.bytes r.method) = .ok post)
    (plain : ∀ h ∈ r.fields, declares h = none → strncasecmp (h ++ crlf) (ascii "Content-Length") = some false)
    (consistent : Consistent r.fields) (small : ∀ n ∈ declaredLength r.fields, n < 2 ^ 31) :
    ((net.exchange scratch).output .server).sent =
      r.line ++ headerBlock r.fields ++ if post then bytes.take ((declaredLength r.fields).getD 0) else [] := by
  have read := @lengthRead_declared (overwrite (net.start scratch).buf r.line) r.fields 0 plain consistent small
  have run := @sendRequest_run r scratch (net.start scratch) bytes scratch.buf.size stream clean post test
  rw [read] at run
  obtain ⟨target, s, _, run, sent⟩ := run
  rw [exchange_server, connects, run]
  refine sent.trans ?_
  simp only [Net.start, List.nil_append]
  congr 1
  cases post with
  | false => simp
  | true =>
    cases declared : declaredLength r.fields with
    | none => simp
    | some n =>
      have bound := small n declared
      by_cases zero : n = 0
      · simp [zero]
      · have nonzero : (n : Int) ≠ 0 := by omega
        have limit : bodyLimit (n : Int) = some n := by
          rw [bodyLimit, if_neg nonzero]
          congr 1
          omega
        simp [zero, limit, takeLimit]

/-- The request line, the header and, if the method begins with POST, the declared bytes of the body are forwarded. -/
theorem forwards_request (stream : net.input .client = (r.line ++ headerBlock r.fields ++ bytes).map some)
    (connects : net.connects = true) (clean : .failed ∉ net.writes .server) {post : Bool}
    (test : strncasecmp r.method (ascii "post") = some post)
    (plain : ∀ h ∈ r.fields, declares h = none → strncasecmp (h ++ crlf) (ascii "Content-Length") = some false)
    (consistent : Consistent r.fields) (small : ∀ n ∈ declaredLength r.fields, n < 2 ^ 31) :
    ((net.exchange scratch).output .server).sent =
      r.line ++ headerBlock r.fields ++ if post then bytes.take ((declaredLength r.fields).getD 0) else [] := by
  exact forwarded_bytes stream connects clean (isPost_overwrite test) plain consistent small

def putRequest : Request := sample (ascii "PUT") (by decide +kernel) (by decide +kernel)

def postRequest : Request := sample (ascii "POST") (by decide +kernel) (by decide +kernel)

/-- The body of a PUT request is not forwarded. -/
theorem put_body_dropped : (putRequest.net [88]).input .client =
    (putRequest.line ++ headerBlock putRequest.fields ++ [88]).map some ∧
    declaredLength putRequest.fields = some 1 ∧
      (((putRequest.net [88]).exchange (.fill 0)).output .server).sent ≠
        putRequest.line ++ headerBlock putRequest.fields ++ [88] := by
  have differs : strncasecmp (ascii "PUT") (ascii "post") = some false := by decide +kernel
  have sent := @forwarded_bytes (putRequest.net [88]) (.fill 0) putRequest [88] rfl rfl nofun false
    (isPost_overwrite differs) sample_plain
    sample_consistent sample_small
  refine ⟨rfl, sample_declared, ?_⟩
  rw [sent]
  simp

theorem forwards_request_post : (((postRequest.net [88, 89]).exchange (.fill 0)).output .server).sent =
    postRequest.line ++ headerBlock postRequest.fields ++ [88] := by
  have sent := @forwards_request (postRequest.net [88, 89]) (.fill 0) postRequest [88, 89] rfl rfl nofun true
    (by decide +kernel) sample_plain
    sample_consistent sample_small
  have one : declaredLength postRequest.fields = some 1 := sample_declared
  rw [one] at sent
  exact sent

end Forwarding

end Splab.Proxy
