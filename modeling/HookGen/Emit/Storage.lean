import HookGen.Code.Statement

/-!
The modules for file storage. They do not depend on a schema, only on where the client is imported
from.
-/

namespace HookGen.Storage

def typesModule : Text := Text.ofString "/** Auto-generated type definitions for storage operations */

/**
 * File metadata returned by the Supabase storage API
 */
export interface FileObject \x7b
  name: string;
  bucket_id: string;
  owner: string;
  id: string;
  updated_at: string;
  created_at: string;
  last_accessed_at: string;
  metadata: Record<string, any>;
  buckets: Bucket;
\x7d

/**
 * Options for uploading files
 */
export interface UploadOptions \x7b
  /**
   * The path to store the file at, including the file name.
   * Defaults to the file's name.
   */
  path?: string;
  /**
   * Custom file metadata
   */
  metadata?: Record<string, any>;
  /**
   * Cache control for the file
   */
  cacheControl?: string;
  /**
   * Content type of the file
   */
  contentType?: string;
  /**
   * Overwrite an existing file at the same path
   */
  upsert?: boolean;
\x7d

/**
 * Options for file listings
 */
export interface ListOptions \x7b
  /**
   * The folder path to list
   */
  path?: string;
  /**
   * The number of files to return
   */
  limit?: number;
  /**
   * The starting position
   */
  offset?: number;
  /**
   * Column to sort by
   */
  sortBy?: \x7b
    column: string;
    order?: 'asc' | 'desc';
  \x7d;
\x7d

/**
 * Options for getting a file's public URL
 */
export interface GetURLOptions \x7b
  /**
   * Custom download name for the file, or true to use the original name
   */
  download?: string | boolean;
\x7d

/**
 * Options for moving/copying files
 */
export interface MoveOptions \x7b
  /**
   * Path to store the moved or copied file
   */
  destinationPath: string;
\x7d

/**
 * Storage bucket information
 */
export interface Bucket \x7b
  id: string;
  name: string;
  owner: string;
  public: boolean;
  created_at: string;
  updated_at: string;
\x7d
"

def hooks : Text := Text.ofString "const folderOf = (path: string): string => path.split('/').slice(0, -1).join('/');

/**
 * Query key factory for storage queries
 */
export const storageKeys = \x7b
  all: ['storage'] as const,
  buckets: () => [...storageKeys.all, 'buckets'] as const,
  bucket: (name: string) => [...storageKeys.buckets(), name] as const,
  lists: () => [...storageKeys.all, 'list'] as const,
  list: (bucket: string, options: ListOptions = \x7b\x7d) => [...storageKeys.lists(), bucket, options] as const,
  files: () => [...storageKeys.all, 'files'] as const,
  file: (bucket: string, path: string) => [...storageKeys.files(), bucket, path] as const,
\x7d;

/**
 * Hook to list all storage buckets
 */
export function useListBuckets(
  options?: Omit<QueryOptions<Bucket[], Error>, 'queryKey' | 'queryFn'>
) \x7b
  return useQuery(\x7b
    queryKey: storageKeys.buckets(),
    queryFn: async () => \x7b
      const \x7b data, error \x7d = await supabase.storage.listBuckets();

      if (error) \x7b
        throw new Error(error.message);
      \x7d

      return data as Bucket[];
    \x7d,
    ...options
  \x7d);
\x7d

/**
 * Hook to get a specific bucket
 */
export function useGetBucket(
  name: string,
  options?: Omit<QueryOptions<Bucket, Error>, 'queryKey' | 'queryFn'>
) \x7b
  return useQuery(\x7b
    queryKey: storageKeys.bucket(name),
    enabled: !!name,
    queryFn: async () => \x7b
      const \x7b data, error \x7d = await supabase.storage.getBucket(name);

      if (error) \x7b
        throw new Error(error.message);
      \x7d

      return data as Bucket;
    \x7d,
    ...options
  \x7d);
\x7d

/**
 * Hook to create a new bucket
 */
export function useCreateBucket(
  options?: Omit<MutationOptions<any, Error, \x7b name: string; isPublic?: boolean \x7d, unknown>, 'mutationFn'>
) \x7b
  const queryClient = useQueryClient();

  return useMutation(\x7b
    mutationFn: async (\x7b name, isPublic = false \x7d: \x7b name: string; isPublic?: boolean \x7d) => \x7b
      const \x7b data, error \x7d = await supabase.storage.createBucket(name, \x7b
        public: isPublic
      \x7d);

      if (error) \x7b
        throw new Error(error.message);
      \x7d

      return data;
    \x7d,
    onSuccess: () => \x7b
      queryClient.invalidateQueries(\x7b queryKey: storageKeys.buckets() \x7d);
    \x7d,
    ...options
  \x7d);
\x7d

/**
 * Hook to update bucket settings
 */
export function useUpdateBucket(
  options?: Omit<MutationOptions<any, Error, \x7b id: string; options: \x7b public: boolean \x7d \x7d, unknown>, 'mutationFn'>
) \x7b
  const queryClient = useQueryClient();

  return useMutation(\x7b
    mutationFn: async (\x7b id, options \x7d: \x7b id: string; options: \x7b public: boolean \x7d \x7d) => \x7b
      const \x7b data, error \x7d = await supabase.storage.updateBucket(id, options);

      if (error) \x7b
        throw new Error(error.message);
      \x7d

      return data;
    \x7d,
    onSuccess: (_, variables) => \x7b
      queryClient.invalidateQueries(\x7b queryKey: storageKeys.bucket(variables.id) \x7d);
      queryClient.invalidateQueries(\x7b queryKey: storageKeys.buckets() \x7d);
    \x7d,
    ...options
  \x7d);
\x7d

/**
 * Hook to delete a bucket
 */
export function useDeleteBucket(
  options?: Omit<MutationOptions<string, Error, string, unknown>, 'mutationFn'>
) \x7b
  const queryClient = useQueryClient();

  return useMutation(\x7b
    mutationFn: async (name: string) => \x7b
      const \x7b error \x7d = await supabase.storage.deleteBucket(name);

      if (error) \x7b
        throw new Error(error.message);
      \x7d

      return name;
    \x7d,
    onSuccess: (name) => \x7b
      queryClient.invalidateQueries(\x7b queryKey: storageKeys.bucket(name) \x7d);
      queryClient.invalidateQueries(\x7b queryKey: storageKeys.buckets() \x7d);
    \x7d,
    ...options
  \x7d);
\x7d

/**
 * Hook to list files within a bucket
 */
export function useListFiles(
  bucket: string,
  options: ListOptions = \x7b\x7d,
  queryOptions?: Omit<QueryOptions<FileObject[], Error>, 'queryKey' | 'queryFn'>
) \x7b
  return useQuery(\x7b
    queryKey: storageKeys.list(bucket, options),
    enabled: !!bucket,
    queryFn: async () => \x7b
      const \x7b path, limit, offset, sortBy \x7d = options;

      const \x7b data, error \x7d = await supabase.storage
        .from(bucket)
        .list(path || '', \x7b
          limit,
          offset,
          sortBy: sortBy ? \x7b column: sortBy.column, order: sortBy.order \x7d : undefined,
        \x7d);

      if (error) \x7b
        throw new Error(error.message);
      \x7d

      return data as unknown as FileObject[];
    \x7d,
    ...queryOptions
  \x7d);
\x7d

/**
 * Hook to get the public URL for a file
 */
export function useGetPublicUrl(
  bucket: string,
  path: string,
  options: GetURLOptions = \x7b\x7d,
  queryOptions?: Omit<QueryOptions<string, Error>, 'queryKey' | 'queryFn'>
) \x7b
  return useQuery(\x7b
    queryKey: [...storageKeys.file(bucket, path), 'url', options],
    enabled: !!bucket && !!path,
    queryFn: async () => \x7b
      const \x7b data \x7d = supabase.storage
        .from(bucket)
        .getPublicUrl(path, options);

      return data.publicUrl;
    \x7d,
    ...queryOptions
  \x7d);
\x7d

/**
 * Hook to upload a file to a bucket
 */
export function useUploadFile(
  bucket: string,
  options?: Omit<MutationOptions<any, Error, \x7b file: File; options?: UploadOptions \x7d, unknown>, 'mutationFn'>
) \x7b
  const queryClient = useQueryClient();

  return useMutation(\x7b
    mutationFn: async (\x7b file, options = \x7b\x7d \x7d: \x7b file: File; options?: UploadOptions \x7d) => \x7b
      const \x7b path, metadata, cacheControl, contentType, upsert = true \x7d = options;

      const \x7b data, error \x7d = await supabase.storage
        .from(bucket)
        .upload(path || file.name, file, \x7b
          cacheControl,
          contentType,
          metadata,
          upsert,
        \x7d);

      if (error) \x7b
        throw new Error(error.message);
      \x7d

      return data;
    \x7d,
    onSuccess: (_, variables) => \x7b
      queryClient.invalidateQueries(\x7b queryKey: storageKeys.lists() \x7d);

      const folderPath = variables.options?.path ? folderOf(variables.options.path) : '';
      queryClient.invalidateQueries(\x7b
        queryKey: storageKeys.list(bucket, \x7b path: folderPath \x7d)
      \x7d);
    \x7d,
    ...options
  \x7d);
\x7d

/**
 * Hook to download a file
 */
export function useDownloadFile(
  bucket: string,
  options?: Omit<MutationOptions<Blob, Error, string, unknown>, 'mutationFn'>
) \x7b
  return useMutation(\x7b
    mutationFn: async (path: string) => \x7b
      const \x7b data, error \x7d = await supabase.storage
        .from(bucket)
        .download(path);

      if (error) \x7b
        throw new Error(error.message);
      \x7d

      return data;
    \x7d,
    ...options
  \x7d);
\x7d

/**
 * Hook to delete files
 */
export function useDeleteFiles(
  bucket: string,
  options?: Omit<MutationOptions<any, Error, string[], unknown>, 'mutationFn'>
) \x7b
  const queryClient = useQueryClient();

  return useMutation(\x7b
    mutationFn: async (paths: string[]) => \x7b
      const \x7b data, error \x7d = await supabase.storage
        .from(bucket)
        .remove(paths);

      if (error) \x7b
        throw new Error(error.message);
      \x7d

      return data;
    \x7d,
    onSuccess: (_, paths) => \x7b
      queryClient.invalidateQueries(\x7b queryKey: storageKeys.lists() \x7d);

      const folders = new Set(paths.map(folderOf));
      folders.forEach(folder => \x7b
        queryClient.invalidateQueries(\x7b
          queryKey: storageKeys.list(bucket, \x7b path: folder \x7d)
        \x7d);
      \x7d);
    \x7d,
    ...options
  \x7d);
\x7d

/**
 * Hook to move a file
 */
export function useMoveFile(
  bucket: string,
  options?: Omit<MutationOptions<any, Error, \x7b sourcePath: string; options: MoveOptions \x7d, unknown>, 'mutationFn'>
) \x7b
  const queryClient = useQueryClient();

  return useMutation(\x7b
    mutationFn: async (\x7b sourcePath, options \x7d: \x7b sourcePath: string; options: MoveOptions \x7d) => \x7b
      const \x7b data, error \x7d = await supabase.storage
        .from(bucket)
        .move(sourcePath, options.destinationPath);

      if (error) \x7b
        throw new Error(error.message);
      \x7d

      return data;
    \x7d,
    onSuccess: (_, variables) => \x7b
      queryClient.invalidateQueries(\x7b queryKey: storageKeys.lists() \x7d);

      const sourceFolder = folderOf(variables.sourcePath);
      const destFolder = folderOf(variables.options.destinationPath);

      queryClient.invalidateQueries(\x7b
        queryKey: storageKeys.list(bucket, \x7b path: sourceFolder \x7d)
      \x7d);
      if (sourceFolder !== destFolder) \x7b
        queryClient.invalidateQueries(\x7b
          queryKey: storageKeys.list(bucket, \x7b path: destFolder \x7d)
        \x7d);
      \x7d
    \x7d,
    ...options
  \x7d);
\x7d

/**
 * Hook to copy a file
 */
export function useCopyFile(
  bucket: string,
  options?: Omit<MutationOptions<any, Error, \x7b sourcePath: string; options: MoveOptions \x7d, unknown>, 'mutationFn'>
) \x7b
  const queryClient = useQueryClient();

  return useMutation(\x7b
    mutationFn: async (\x7b sourcePath, options \x7d: \x7b sourcePath: string; options: MoveOptions \x7d) => \x7b
      const \x7b data, error \x7d = await supabase.storage
        .from(bucket)
        .copy(sourcePath, options.destinationPath);

      if (error) \x7b
        throw new Error(error.message);
      \x7d

      return data;
    \x7d,
    onSuccess: (_, variables) => \x7b
      queryClient.invalidateQueries(\x7b queryKey: storageKeys.lists() \x7d);
      queryClient.invalidateQueries(\x7b
        queryKey: storageKeys.list(bucket, \x7b path: folderOf(variables.options.destinationPath) \x7d)
      \x7d);
    \x7d,
    ...options
  \x7d);
\x7d
"

def hooksModule (clientPath : Text) : Text :=
  let queryNames : List Text :=
    ["useQuery", "useMutation", "useQueryClient", "QueryOptions", "MutationOptions"]
  let typeNames : List Text :=
    ["Bucket", "FileObject", "GetURLOptions", "ListOptions", "MoveOptions", "UploadOptions"]
  let imports := Text.joinLines [
    Code.importNames false queryNames "@tanstack/react-query",
    Code.clientImport clientPath,
    Code.importNames true typeNames "./types"]
  imports ++ "\n\n" ++ hooks

def indexModule : Text :=
  Code.reexportIndex "Auto-generated index file for the storage module" ["./types", "./hooks"]

-- The names and texts of the modules.
def modules (clientPath : Text) : List (Text × Text) := [
  ("types.ts", typesModule),
  ("hooks.ts", hooksModule clientPath),
  ("index.ts", indexModule)]

end HookGen.Storage
