import VelocityMcp.NdaNative.ToolsList
import VelocityMcp.Wasm.Registry

/-!
# Registry.Builtin — the built-in tools and their schemas (`get_builtin_tools` of `registry.rs`)
-/

namespace VelocityMcp.Registry

/-- A property of a schema: its type and what it says. -/
def typed (type description : String) : Value :=
  .object [("description", .string description), ("type", .string type)]

def arrayOf (items : Value) (description : String) : Value :=
  .object [("description", .string description), ("items", items), ("type", .string "array")]

def objectSchema (properties : List (String × Value)) (required : List String) : Value :=
  .object [("properties", .object properties), ("required", .array (required.map .string)),
    ("type", .string "object")]

def getBuiltinTools : List Tool :=
  [
    { name := "file_read"
      description :=
        "Read a file's contents as UTF-8 text. Use for inspecting source code, configs, logs, or any text " ++
        "file. Returns the full file content as a string. Fails if the file is binary or does not exist."
      inputSchema := objectSchema
        [("path", typed "string" "Absolute path to the file.")]
        ["path"] },
    { name := "file_write"
      description :=
        "Write text content to a file. Creates parent directories if needed. Overwrites existing files " ++
        "entirely. Use for generating code, configs, or any text output. Returns bytes written."
      inputSchema := objectSchema
        [("content", typed "string" "Text content to write."),
          ("path", typed "string" "Absolute path to the file.")]
        ["path", "content"] },
    { name := "shell_exec"
      description :=
        "Execute a shell command with timeout enforcement and security validation. Blocks dangerous " ++
        "system-level patterns (rm -rf /, format, diskpart, encoded PowerShell, etc). All invocations are " ++
        "audit-logged. Returns exit code, stdout, and stderr. Use for running builds, tests, git commands, or " ++
        "system utilities. Commands run with the server's permissions."
      inputSchema := objectSchema
        [("command", typed "string" "Shell command to execute."),
          ("timeout", typed "integer"
            "Timeout in seconds (default: 30). Command will be killed if it exceeds this."),
          ("workingDir", typed "string" "Working directory (absolute path). Optional.")]
        ["command"] },
    { name := "http_request"
      description :=
        "Make an HTTP request with timeout enforcement and SSRF protection. Blocks requests to localhost and " ++
        "private IPs. Supports GET, POST, PUT, DELETE, PATCH, HEAD. Returns status code, status text, and " ++
        "response body. Use for calling APIs, fetching data, or testing endpoints."
      inputSchema := objectSchema
        [("body", typed "string" "Request body (for POST/PUT/PATCH)."),
          ("headers", typed "object" "Request headers as key-value pairs."),
          ("method", typed "string" "HTTP method. Default: GET."),
          ("timeout", typed "integer" "Timeout in seconds (default: 30)."),
          ("url", typed "string" "Target URL (must be http:// or https://).")]
        ["url"] },
    { name := "list_directory"
      description :=
        "List contents of a directory. Returns files and subdirectories with metadata (size, type). Use for " ++
        "exploring directory structure."
      inputSchema := objectSchema
        [("path", typed "string" "Absolute path to the directory.")]
        ["path"] },
    { name := "directory_tree"
      description :=
        "Recursively list directory contents as a tree structure. Shows nested files and directories with " ++
        "indentation. Use for visualizing project structure."
      inputSchema := objectSchema
        [("excludePatterns", arrayOf (.object [("type", .string "string")])
          "Glob patterns to exclude (e.g., ['*.log', 'node_modules'])"),
          ("maxDepth", typed "integer" "Maximum tree depth to descend (default 10, capped at 20)."),
          ("path", typed "string" "Absolute path to the root directory.")]
        ["path"] },
    { name := "search_files"
      description :=
        "Search for files matching a glob pattern within a directory. Recursively searches subdirectories. " ++
        "Use for finding files by name or extension."
      inputSchema := objectSchema
        [("path", typed "string" "Absolute path to the search root directory."),
          ("pattern", typed "string" "Glob pattern to match (e.g., '*.rs', 'test_*.py').")]
        ["path", "pattern"] },
    { name := "move_file"
      description :=
        "Move or rename a file. Can move across directories. Fails if destination exists. Use for " ++
        "reorganizing files."
      inputSchema := objectSchema
        [("destination", typed "string" "Absolute path to the destination."),
          ("source", typed "string" "Absolute path to the source file.")]
        ["source", "destination"] },
    { name := "create_directory"
      description :=
        "Create a directory recursively (like mkdir -p). Creates parent directories if needed. Succeeds " ++
        "silently if directory already exists."
      inputSchema := objectSchema
        [("path", typed "string" "Absolute path to the directory to create.")]
        ["path"] },
    { name := "edit_file"
      description :=
        "Apply text replacements to a file using find-and-replace. Supports dry-run mode to preview changes. " ++
        "Use for targeted edits without rewriting entire file."
      inputSchema := objectSchema
        [("dryRun", typed "boolean" "If true, preview changes without applying them."),
          ("edits", arrayOf (objectSchema
            [("newText", typed "string" "Replacement text."),
              ("oldText", typed "string" "Exact text to find and replace.")]
            ["oldText", "newText"])
            "Array of find-and-replace operations."),
          ("path", typed "string" "Absolute path to the file to edit.")]
        ["path", "edits"] },
    { name := "get_file_info"
      description :=
        "Get file metadata including size, modification time, permissions, and type. Use for inspecting file " ++
        "properties."
      inputSchema := objectSchema
        [("path", typed "string" "Absolute path to the file.")]
        ["path"] },
    { name := "bench_echo"
      description :=
        "Benchmark tool: returns a text payload of the requested size in bytes. Used for measuring " ++
        "serialization cost at different payload sizes."
      inputSchema := objectSchema
        [("size", typed "integer" "Response payload size in bytes (default 64).")]
        [] },
    { name := "convert_to_nda_document"
      description :=
        "Convert a file into a cryptographically signed NDA binary document. NDA is a zero-allocation format " ++
        "with semantic triples, Merkle integrity, and Ed25519 signatures. Accepts: source code, PDF, CSV, " ++
        "Excel, images, archives. Returns the output path and file size."
      inputSchema := objectSchema
        [("filePath", typed "string" "Absolute path to the input file."),
          ("outputPath", typed "string" "Output .nda path. Defaults to input with .nda extension.")]
        ["filePath"] },
    { name := "read_nda"
      description :=
        "Read and inspect an NDA binary document. Shows semantic triples, visual display commands, string " ++
        "pool contents, Merkle integrity status, and Ed25519 signature verification. Use to examine or debug " ++
        "NDA files."
      inputSchema := objectSchema
        [("ndaPath", typed "string" "Absolute path to the .nda file.")]
        ["ndaPath"] },
    { name := "execute_nda"
      description :=
        "Execute a runnable NDA container. Runs compiled binaries in-memory or scripts (Python, Node.js, " ++
        "PowerShell, Bash) via shell. Returns the program's stdout. Use for running sandboxed executables " ++
        "packaged as NDA documents."
      inputSchema := objectSchema
        [("arguments", arrayOf (.object [("type", .string "string")]) "Command-line arguments."),
          ("ndaPath", typed "string" "Absolute path to the runnable .nda file.")]
        ["ndaPath"] },
    { name := "convert_to_nda_tool"
      description :=
        "Convert a JSON-RPC tool call to NDA binary format and register it for fast execution. Converted " ++
        "calls are dispatched through the zero-allocation TLV frame path instead of parsing a JSON document " ++
        "each time. The converted tool is immediately available by name."
      inputSchema := objectSchema
        [("jsonRequest", typed "string" "JSON-RPC tool call to convert."),
          ("outputPath", typed "string"
            "Optional path to write the NDA binary. Tool is registered regardless.")]
        ["jsonRequest"] }
  ]

theorem nodup_builtin : (getBuiltinTools.map Tool.name).Nodup := by decide +kernel

/-- The tools listed first are those of `BUILTIN_TOOL_NAMES`. -/
theorem builtin_perm : (getBuiltinTools.map Tool.name).Perm Wasm.builtinToolNames := by decide +kernel

theorem mem_builtin_iff {name : String} :
    name ∈ getBuiltinTools.map Tool.name ↔ name ∈ Wasm.builtinToolNames := builtin_perm.mem_iff

end VelocityMcp.Registry
